/-
Whether judging a report can raise.

A report is untrusted, and the validators look its values up in sets. A list or an object
in such a place is no wrong value but an error; everything else, of whatever type, is met
with a complaint. The places are named here, for each of the validators.
-/
import Memline.Wiki.Conserved

set_option autoImplicit false

namespace Memline.wiki

open Py Check

variable {rt : Runtime} {report review_bundle : Dict}

/-! ## The bundle -/

/-- A claim packet as the compiler of bundles writes it. -/
structure ClaimPacket (packet : Dict) : Prop where
  claim_id : ∃ id, packet.lookup "claim_id" = some (.str id)
  citations : ∃ cs : List Dict, packet.lookup "citations" = some (.list (cs.map .obj)) ∧
    ∀ c ∈ cs, c.lookup "resolved_ref" = some .null ∨
      ∃ ref, c.lookup "resolved_ref" = some (.str ref)

/-- A bundle as the compiler of bundles writes it. -/
structure WellFormedBundle (review_bundle : Dict) : Prop where
  claim_packets : ∃ packets : List Dict,
    Dict.get review_bundle "claim_packets" = .list (packets.map .obj) ∧ ∀ p ∈ packets, ClaimPacket p
  uncited_evidence : ∃ items : List Dict,
    Dict.get review_bundle "uncited_evidence" = .list (items.map .obj) ∧
      ∀ item ∈ items, ∃ ref, item.lookup "ref" = some (.str ref)
  article_sha256 : ∃ sha, Dict.get review_bundle "article_sha256" = .str sha
  article_markdown : ∃ text, Dict.get review_bundle "article_markdown" = .str text
  deterministic_report : ∃ status, Dict.get review_bundle "deterministic_report" = .obj status

/-- The packet of a claim. -/
def packet_of (review_bundle : Dict) (claim_id : Json) : Option Json :=
  (packets_by_id review_bundle).toOption.bind fun expected => expected.find claim_id

/-- The refs of a packet. -/
def evidence_of (packet : Json) : List Json := (resolved_refs packet).toOption.getD []

/-- The refs of a bundle. -/
def known_refs (review_bundle : Dict) : List Json := (known_evidence review_bundle).toOption.getD []

/-- Refs are strings. -/
def Strings (refs : List Json) : Prop := ∀ ref ∈ refs, ref.is_str = true

/-- The references of a packet resolve to texts. -/
theorem ClaimPacket.refs {packet : Dict} (h : ClaimPacket packet) {refs : List Json}
    (hrefs : Strings refs) :
    ∃ allowed, resolved_refs (.obj packet) refs = .ok allowed ∧ Strings allowed := by
  obtain ⟨cs, hcs, hall⟩ := h.citations
  have hitem : (Json.obj packet).item "citations" = .ok (.list (cs.map .obj)) := by
    rw [Json.item, hcs]
  unfold resolved_refs
  rw [hitem]
  refine Except.foldlM_keeps (P := Strings) (fun c hc refs hrefs => ?_) hrefs
  obtain ⟨c, hmem, rfl⟩ := List.mem_map.mp hc
  rcases hall c hmem with hnull | ⟨ref, href⟩
  · refine ⟨refs, ?_, hrefs⟩
    rw [Json.item, hnull]
    rfl
  · rw [Json.item, href]
    by_cases htruthy : (Json.str ref).truthy = true
    · refine ⟨.str ref :: refs, ?_, List.forall_mem_cons.mpr ⟨rfl, hrefs⟩⟩
      exact Except.bind_ok.mpr ⟨_, rfl, by rw [if_pos htruthy]; rfl⟩
    · exact ⟨refs, Except.bind_ok.mpr ⟨_, rfl, by rw [if_neg htruthy]; rfl⟩, hrefs⟩

/-- The packets of a bundle can be read, and so can the refs of each. -/
theorem WellFormedBundle.expected (h : WellFormedBundle review_bundle) :
    ∃ expected, packets_by_id review_bundle = .ok expected ∧
      (∀ key ∈ expected.keys, ∃ s, key = .str s) ∧
      ∀ e ∈ expected, ∃ allowed, resolved_refs e.2 = .ok allowed ∧ Strings allowed := by
  obtain ⟨packets, hpackets, hall⟩ := h.claim_packets
  have hkeep : ∃ expected, packets_by_id review_bundle = .ok expected ∧
      ∀ e ∈ expected, (∃ s, e.1 = .str s) ∧ ∃ allowed, resolved_refs e.2 = .ok allowed ∧
        Strings allowed := by
    unfold packets_by_id
    rw [hpackets, entries_list]
    refine Except.foldlM_keeps (P := fun m : Map Json => ∀ e ∈ m, (∃ s, e.1 = .str s) ∧
      ∃ allowed, resolved_refs e.2 = .ok allowed ∧ Strings allowed) (fun p hp m hm => ?_) (by simp)
    obtain ⟨packet, hmem, rfl⟩ := List.mem_map.mp hp
    obtain ⟨id, hid⟩ := (hall packet hmem).claim_id
    have hnone : Strings [] := fun ref href => absurd href List.not_mem_nil
    have hrefs := (hall packet hmem).refs hnone
    refine ⟨m.put (.str id) (.obj packet), ?_, ?_⟩
    · rw [Json.item, hid]
      rfl
    · -- an id is entered anew, or its entry is replaced under the key that is there
      rcases Map.put_cases m (.str id) (.obj packet)
        with ⟨-, hput, -⟩ | ⟨before, k, u, after, rfl, hk, -, hput⟩
      · rw [hput]
        intro e he
        rcases List.mem_append.mp he with he | he
        · exact hm e he
        · rw [List.mem_singleton.mp he]
          exact ⟨⟨id, rfl⟩, hrefs⟩
      · rw [hput]
        intro e he
        rcases List.mem_append.mp he with he | he
        · exact hm e (List.mem_append_left _ he)
        · rcases List.mem_cons.mp he with rfl | he
          · exact ⟨⟨id, Json.eq_str.mp hk⟩, hrefs⟩
          · exact hm e (List.mem_append_right _ (List.mem_cons_of_mem _ he))
  obtain ⟨expected, hexpected, hentries⟩ := hkeep
  refine ⟨expected, hexpected, fun key hkey => ?_, fun e he => (hentries e he).2⟩
  obtain ⟨e, he, rfl⟩ := List.mem_map.mp hkey
  exact (hentries e he).1

/-- The refs of a bundle can be read. -/
theorem WellFormedBundle.known (h : WellFormedBundle review_bundle) :
    known_evidence review_bundle = .ok (known_refs review_bundle) ∧
      Strings (known_refs review_bundle) := by
  obtain ⟨packets, hpackets, hall⟩ := h.claim_packets
  obtain ⟨items, hitems, huncited⟩ := h.uncited_evidence
  have hkeep : ∃ refs, known_evidence review_bundle = .ok refs ∧ Strings refs := by
    unfold known_evidence
    rw [hitems, hpackets, entries_list, entries_list]
    obtain ⟨refs, hrefs, hstrings⟩ : ∃ refs, (items.map Json.obj).foldlM (fun refs item => do
        let ref ← item.item "ref"
        Json.add refs ref) [] = .ok refs ∧ Strings refs := by
      refine Except.foldlM_keeps (P := Strings) (fun item hitem refs hrefs =>
        ?_) (by simp [Strings])
      obtain ⟨item, hmem, rfl⟩ := List.mem_map.mp hitem
      obtain ⟨ref, href⟩ := huncited item hmem
      refine ⟨.str ref :: refs, ?_, List.forall_mem_cons.mpr ⟨rfl, hrefs⟩⟩
      rw [Json.item, href]
      rfl
    obtain ⟨all, hall', hstrings'⟩ : ∃ all, (packets.map Json.obj).foldlM
        (fun refs packet => resolved_refs packet refs) refs = .ok all ∧ Strings all := by
      refine Except.foldlM_keeps (P := Strings) (fun p hp refs hrefs => ?_) hstrings
      obtain ⟨packet, hmem, rfl⟩ := List.mem_map.mp hp
      exact (hall packet hmem).refs hrefs
    exact ⟨all, Except.bind_ok.mpr ⟨_, rfl, Except.bind_ok.mpr ⟨refs, hrefs,
      Except.bind_ok.mpr ⟨_, rfl, hall'⟩⟩⟩, hstrings'⟩
  obtain ⟨refs, hrefs, hstrings⟩ := hkeep
  have hknown : known_refs review_bundle = refs := by rw [known_refs, hrefs]; rfl
  rw [hknown]
  exact ⟨hrefs, hstrings⟩

/-- A well-formed bundle tells whether it was found clean. -/
theorem WellFormedBundle.status (h : WellFormedBundle review_bundle) :
    ∃ status, deterministic_status review_bundle = .ok status := by
  obtain ⟨fields, hfields⟩ := h.deterministic_report
  rw [deterministic_status, hfields, Json.or_else]
  split
  · exact ⟨_, rfl⟩
  · exact ⟨_, rfl⟩

/-! ## Values that are looked up -/

/-- No unhashable ref stands before the first one that is not known. -/
def refs_readable (known : List Json) : List Json → Bool
  | [] => true
  | ref :: refs => ref.hashable && (!ref.elem known || refs_readable known refs)

/-- The evidence of a review can be looked up. -/
def evidence_readable (known : List Json) (item : Dict) : Bool :=
  match Dict.get item "evidence_refs" with
  | .list refs => refs_readable known refs
  | _ => true

/-- What is looked up of a claim review, or of a finding of a merged claim. -/
structure ReviewReadable (allowed : List Json) (item : Dict) : Prop where
  verdict : (Dict.get item "verdict").hashable = true
  confidence : (Dict.get item "confidence").hashable = true
  evidence : evidence_readable allowed item = true

/-- What is looked up of a merged claim. -/
structure MergedReadable (allowed : List Json) (item : Dict) : Prop where
  verdict : (Dict.get item "verdict").hashable = true
  findings : ∀ f ∈ objects item "findings", ReviewReadable allowed f

/-- What is looked up of an omission review. -/
structure OmissionReadable (known : List Json) (item : Dict) : Prop where
  severity : (Dict.get item "severity").hashable = true
  evidence : evidence_readable known item = true

/-- Looking for a value among texts returns exactly when the value can be a key. -/
theorem in_strings_returns {x : Json} {s : List String} :
    (∃ b, x.in_strings s = .ok b) ↔ x.hashable = true := by
  unfold Json.in_strings Json.in_set
  by_cases h : x.hashable = true
  · rw [if_pos h]
    exact ⟨fun _ => h, fun _ => ⟨_, rfl⟩⟩
  · rw [if_neg h]
    exact ⟨fun ⟨_, hb⟩ => (nomatch hb), fun hx => absurd hx h⟩

/-- A look-up in a set of strings, and what follows it. -/
theorem finishes_lookup {x : Json} {s : List String} {β : Type} {f : Bool → Check Error Json β}
    {P : Prop} (h : ∀ b, Finishes (f b) ↔ P) :
    Finishes (lift (x.in_strings s) >>= f) ↔ x.hashable = true ∧ P := by
  rw [finishes_bind h, finishes_lift, in_strings_returns]

/-- Looking for references outside of what is known returns exactly when they are readable. -/
theorem any_outside_returns {known refs : List Json} :
    (∃ b, any_outside known refs = .ok b) ↔ refs_readable known refs = true := by
  induction refs with
  | nil => exact ⟨fun _ => rfl, fun _ => ⟨false, rfl⟩⟩
  | cons ref refs ih =>
    unfold any_outside refs_readable Json.in_set
    by_cases hhash : ref.hashable = true
    · rw [if_pos hhash, hhash, Bool.true_and]
      change (∃ b, (if ref.elem known = true then any_outside known refs else pure true) = .ok b) ↔
        _
      cases ref.elem known with
      | true => simpa using ih
      | false => exact ⟨fun _ => rfl, fun _ => ⟨true, rfl⟩⟩
    · rw [if_neg hhash, Bool.not_eq_true _ |>.mp hhash]
      exact ⟨fun ⟨_, hb⟩ => (nomatch hb), fun hx => (nomatch hx)⟩

/-- The look-up of evidence. -/
theorem unknown_evidence_returns {known : List Json} {item : Dict} :
    (∃ b, unknown_evidence ((Dict.get item "evidence_refs").or_else (.list [])) known = .ok b) ↔
      evidence_readable known item = true := by
  unfold evidence_readable Json.or_else
  cases Dict.get item "evidence_refs" with
  | list refs =>
    cases refs with
    | nil => exact ⟨fun _ => rfl, fun _ => ⟨false, rfl⟩⟩
    | cons ref refs =>
      have htruthy : (Json.list (ref :: refs)).truthy = true := rfl
      rw [if_pos htruthy]
      exact any_outside_returns
  | _ =>
    refine ⟨fun _ => rfl, fun _ => ?_⟩
    split
    · exact ⟨true, rfl⟩
    · exact ⟨false, rfl⟩

/-- The evidence of an item is looked at without raising exactly when it is readable. -/
theorem finishes_evidence {known : List Json} {item : Dict} {β : Type}
    {f : Bool → Check Error Json β} (h : ∀ b, Finishes (f b)) :
    Finishes (lift (unknown_evidence ((Dict.get item "evidence_refs").or_else (.list [])) known) >>=
      f) ↔
      evidence_readable known item = true := by
  rw [finishes_last h, finishes_lift, unknown_evidence_returns]

/-! ## Claims -/

/-- A claim is checked without raising exactly when its review is readable. -/
theorem check_claim_finishes (claim_id packet : Json) (item : Dict) (allowed : List Json)
    (hallowed : resolved_refs packet = .ok allowed) :
    Finishes (check_claim claim_id packet item) ↔ ReviewReadable allowed item := by
  have hrun : Finishes (check_claim claim_id packet item) ↔
      (Dict.get item "verdict").hashable = true ∧ (Dict.get item "confidence").hashable = true ∧
        evidence_readable allowed item = true := by
    refine finishes_lookup fun _ => (finishes_seq (finishes_complain_if _ _)).trans ?_
    refine finishes_lookup fun _ => (finishes_seq (finishes_complain_if _ _)).trans ?_
    refine (finishes_seq (finishes_complain_if _ _)).trans ?_
    refine (finishes_seq (finishes_complain_if _ _)).trans ?_
    refine (finishes_lift_bind hallowed).trans (finishes_evidence fun outside => ?_)
    cases outside with
    | true => exact finishes_complain _
    | false => exact finishes_complain_if _ _
  rw [hrun]
  exact ⟨fun ⟨hv, hc, he⟩ => ⟨hv, hc, he⟩, fun h => ⟨h.verdict, h.confidence, h.evidence⟩⟩

theorem note_pass_finishes (passes : ℤ) (claim_id : Json) (s : PassFindings) (value : Json) :
    Finishes (note_pass passes claim_id s value) := by
  unfold note_pass
  split
  · split
    · exact (finishes_seq (finishes_complain _)).mpr (finishes_pure _)
    · split
      · exact (finishes_seq (finishes_complain _)).mpr (finishes_pure _)
      · exact finishes_pure _
  · exact (finishes_seq (finishes_complain _)).mpr (finishes_pure _)

/-- A verdict is noted without raising exactly when it can be a key. -/
theorem note_verdict_finishes {claim_id : Json} {s : PassFindings} {value : Json} :
    Finishes (note_verdict claim_id s value) ↔ value.hashable = true := by
  unfold note_verdict
  refine (finishes_last fun ruled => ?_).trans (finishes_lift.trans in_strings_returns)
  split
  · split
    · exact (finishes_seq (finishes_complain _)).mpr (finishes_pure _)
    · exact finishes_pure _
  · exact (finishes_seq (finishes_complain _)).mpr (finishes_pure _)

theorem mem_dicts {item : Dict} {items : List Json} :
    item ∈ dicts items ↔ Json.obj item ∈ items := by
  unfold dicts
  rw [List.mem_filterMap]
  constructor
  · rintro ⟨x, hx, heq⟩
    cases x with
    | obj d => exact Option.some.inj heq ▸ hx
    | _ => cases heq
  · exact fun h => ⟨.obj item, h, rfl⟩

/-- A finding of a merged claim is checked without raising exactly when it is readable, if it is an
object. -/
theorem check_merged_finding_finishes {passes : ℤ} {claim_id : Json} {allowed : List Json}
    {s : PassFindings} {value : Json} :
    Finishes (check_merged_finding passes claim_id allowed s value) ↔
      ∀ item, value = .obj item → ReviewReadable allowed item := by
  cases value with
  | obj item =>
    have hrun : Finishes (check_merged_finding passes claim_id allowed s (.obj item)) ↔
        (Dict.get item "verdict").hashable = true ∧ (Dict.get item "confidence").hashable = true ∧
          evidence_readable allowed item = true := by
      refine finishes_after (note_pass_finishes _ _ _ _) fun s' => ?_
      refine (finishes_bind fun s'' => ?_).trans (and_congr_left fun _ => note_verdict_finishes)
      refine finishes_lookup fun _ => (finishes_seq (finishes_complain_if _ _)).trans ?_
      refine (finishes_seq (finishes_complain_if _ _)).trans ?_
      refine (finishes_seq (finishes_complain_if _ _)).trans (finishes_evidence fun outside => ?_)
      exact (finishes_seq (finishes_complain_if _ _)).mpr (finishes_pure _)
    rw [hrun]
    constructor
    · rintro ⟨hv, hc, he⟩ _ ⟨⟩
      exact ⟨hv, hc, he⟩
    · intro h
      exact ⟨(h item rfl).verdict, (h item rfl).confidence, (h item rfl).evidence⟩
  | _ =>
    refine ⟨fun _ _ hobj => (nomatch hobj), fun _ => ?_⟩
    exact (finishes_seq (finishes_complain _)).mpr (finishes_pure _)

/-- The objects of a field are those among its items. -/
theorem objects_eq (report : Dict) (field : String) :
    objects report field = dicts (items_of (Dict.get report field)) := by
  unfold objects items_of
  cases Dict.get report field with
  | list items => rfl
  | _ => rfl

/-- A list is taken as it is, and anything else is complained about and taken as empty: neither
raises. -/
theorem list_or_complain_eq (value : Json) (kind : String) (about : Dict) :
    ∃ ks, list_or_complain value kind about = .ok (items_of value, ks) := by
  cases value with
  | list items => exact ⟨[], rfl⟩
  | _ => exact ⟨_, rfl⟩

/-- A merged claim is checked without raising exactly when it is readable. -/
theorem check_merged_claim_finishes (passes : ℤ) (claim_id packet : Json) (item : Dict)
    (allowed : List Json) (hallowed : resolved_refs packet = .ok allowed) :
    Finishes (check_merged_claim passes claim_id packet item) ↔ MergedReadable allowed item := by
  obtain ⟨ks, hlisted⟩ :=
    list_or_complain_eq (Dict.get item "findings") "merged_claim_findings_missing"
    [("claim_id", claim_id)]
  have hfindings : (∀ x ∈ items_of (Dict.get item "findings"), ∀ f, x = .obj f →
      ReviewReadable allowed f) ↔
      ∀ f ∈ objects item "findings", ReviewReadable allowed f := by
    rw [objects_eq]
    constructor
    · exact fun h f hf => h _ (mem_dicts.mp hf) f rfl
    · rintro h x hx f rfl
      exact h f (mem_dicts.mpr hx)
  have hrun : Finishes (check_merged_claim passes claim_id packet item) ↔
      (Dict.get item "verdict").hashable = true ∧ ∀ f ∈ objects item "findings",
        ReviewReadable allowed f := by
    refine finishes_lookup fun _ => (finishes_seq (finishes_complain_if _ _)).trans ?_
    refine (finishes_seq (finishes_complain_if _ _)).trans ?_
    refine (finishes_seq (finishes_complain_if _ _)).trans ((finishes_bind_of hlisted).trans ?_)
    refine (finishes_lift_bind hallowed).trans ?_
    rw [← hfindings]
    refine (finishes_last fun s => ?_).trans (finishes_foldlM (fun x _ s => ?_) _)
    · exact (finishes_seq (finishes_complain_if _ _)).mpr (finishes_complain_if _ _)
    · exact check_merged_finding_finishes
  rw [hrun]
  exact ⟨fun ⟨hv, hf⟩ => ⟨hv, hf⟩, fun h => ⟨h.verdict, h.findings⟩⟩

/-- What is looked up of the claim reviews of a report, `Readable` saying it of each. -/
def ClaimsReadable (review_bundle report : Dict) (Readable : List Json → Dict → Prop) : Prop :=
  ∀ item ∈ objects report "claim_reviews", (Dict.get item "claim_id").hashable = true ∧
    ∀ packet, packet_of review_bundle (Dict.get item "claim_id") = some packet →
      Readable (evidence_of packet) item

/-- The loop over claim reviews. -/
theorem claim_reviews_finish (h : WellFormedBundle review_bundle) {expected : Map Json}
    (hexpected : packets_by_id review_bundle = .ok expected)
    {check : Json → Json → Dict → Check Error Json Unit} {Readable : List Json → Dict → Prop}
    (hcheck : ∀ claim_id packet item allowed, resolved_refs packet = .ok allowed →
      (Finishes (check claim_id packet item) ↔ Readable allowed item)) (seen : List Json) :
    Finishes ((items_of (Dict.get report "claim_reviews")).foldlM
      (check_claim_review expected check) seen) ↔
      ClaimsReadable review_bundle report Readable := by
  have hfind : ∀ claim_id, packet_of review_bundle claim_id = expected.find claim_id := by
    intro claim_id
    rw [packet_of, hexpected]
    rfl
  have hstep : ∀ x ∈ items_of (Dict.get report "claim_reviews"), ∀ seen,
      Finishes (check_claim_review expected check seen x) ↔ ∀ item, x = .obj item →
        (Dict.get item "claim_id").hashable = true ∧
          ∀ packet, packet_of review_bundle (Dict.get item "claim_id") = some packet →
            Readable (evidence_of packet) item := by
    intro x _ seen
    cases x with
    | obj item =>
      have hrun : Finishes (check_claim_review expected check seen (.obj item)) ↔
          (Dict.get item "claim_id").hashable = true ∧
            ∀ packet, packet_of review_bundle (Dict.get item "claim_id") = some packet →
              Readable (evidence_of packet) item := by
        -- looking an id up raises exactly when the id has no hash
        have hset : (∃ b, (Dict.get item "claim_id").in_set seen = .ok b) ↔
            (Dict.get item "claim_id").hashable = true := by
          unfold Json.in_set
          by_cases hhash : (Dict.get item "claim_id").hashable = true
          · rw [if_pos hhash]
            exact ⟨fun _ => hhash, fun _ => ⟨_, rfl⟩⟩
          · rw [if_neg hhash]
            exact ⟨fun ⟨_, hb⟩ => (nomatch hb), fun hx => absurd hx hhash⟩
        rw [hfind, ← hset, ← @finishes_lift _ Json]
        refine finishes_bind fun again => (finishes_seq (finishes_complain_if _ _)).trans ?_
        -- an id of no packet is complained about, which is no failure; its fields are not
        -- read
        cases hpacket : expected.find (Dict.get item "claim_id") with
        | none =>
          refine ⟨fun _ _ hsome => (nomatch hsome), fun _ => ?_⟩
          exact (finishes_seq (finishes_complain _)).mpr (finishes_pure _)
        | some packet =>
          obtain ⟨expected', hexpected', -, hrefs⟩ := h.expected
          obtain rfl := Except.ok.inj (hexpected.symm.trans hexpected')
          obtain ⟨key, hmem, -⟩ := Map.find_mem hpacket
          obtain ⟨allowed, hallowed, -⟩ := hrefs _ hmem
          have hevidence : evidence_of packet = allowed := by rw [evidence_of, hallowed]; rfl
          refine (finishes_last fun _ => finishes_pure _).trans
            ((hcheck _ packet item allowed hallowed).trans ?_)
          rw [← hevidence]
          exact ⟨fun hr _ heq => Option.some.inj heq ▸ hr, fun hr => hr packet rfl⟩
      rw [hrun]
      exact ⟨fun hr _ heq => Json.obj.inj heq ▸ hr, fun hr => hr item rfl⟩
    | _ =>
      refine ⟨fun _ _ hobj => (nomatch hobj), fun _ => ?_⟩
      exact (finishes_seq (finishes_complain _)).mpr (finishes_pure _)
  rw [finishes_foldlM hstep, ClaimsReadable, objects_eq]
  constructor
  · exact fun hall item hitem => hall _ (mem_dicts.mp hitem) item rfl
  · rintro hall x hx item rfl
    exact hall item (mem_dicts.mpr hx)

/-- The ids of packets are strings, so what is missing can be sorted. -/
theorem check_complete_finishes {expected : Map Json}
    (hkeys : ∀ key ∈ expected.keys, ∃ s, key = .str s) (seen : List Json) :
    Finishes (check_complete expected seen) := by
  have hsorted : ∃ missing, Json.sorted_on id
      (expected.keys.filter fun claim_id => !claim_id.elem seen) = .ok missing := by
    unfold Json.sorted_on
    split
    · exact ⟨_, rfl⟩
    · have hstrings : ((expected.keys.filter fun claim_id => !claim_id.elem seen).all
          fun x => (id x).is_str) = true := by
        rw [List.all_eq_true]
        intro key hkey
        obtain ⟨s, rfl⟩ := hkeys key (List.mem_of_mem_filter hkey)
        rfl
      rw [if_pos hstrings]
      exact ⟨_, rfl⟩
  exact (finishes_last fun _ => finishes_complain_if _ _).mpr (finishes_lift.mpr hsorted)

/-! ## Omissions -/

theorem check_quotes_finishes (article : String) (index : ℕ) (item : Dict) :
    Finishes (check_quotes (.str article) index item) := by
  unfold check_quotes
  simp only
  split
  · exact finishes_complain _
  · split
    · exact finishes_pure _
    · split
      · rw [finishes_forM]
        exact fun quote _ => (finishes_last fun _ => finishes_complain_if _ _).mpr
          (finishes_lift.mpr ⟨_, rfl⟩)
      · exact finishes_complain _
    · exact finishes_complain _

/-- An omission is checked without raising exactly when it is readable, if it is an object. -/
theorem check_omission_finishes {known : List Json} {article : String} {entry : Json × ℕ} :
    Finishes (check_omission known (.str article) entry) ↔
      ∀ item, entry.1 = .obj item → OmissionReadable known item := by
  obtain ⟨value, index⟩ := entry
  cases value with
  | obj item =>
    have hrun : Finishes (check_omission known (.str article) (.obj item, index)) ↔
        (Dict.get item "severity").hashable = true ∧ evidence_readable known item = true := by
      refine finishes_lookup fun _ => (finishes_seq (finishes_complain_if _ _)).trans ?_
      refine (finishes_seq (finishes_complain_if _ _)).trans (finishes_evidence fun unknown => ?_)
      exact (finishes_seq (finishes_complain_if _ _)).mpr (check_quotes_finishes _ _ _)
    rw [hrun]
    constructor
    · rintro ⟨hs, he⟩ _ ⟨⟩
      exact ⟨hs, he⟩
    · exact fun h => ⟨(h item rfl).severity, (h item rfl).evidence⟩
  | _ => exact ⟨fun _ _ hobj => (nomatch hobj), fun _ => finishes_complain _⟩

/-- Whatever is said of the members of a numbered list is said of the list. -/
theorem forall_zipIdx {P : Json → Prop} (xs : List Json) (n : ℕ) :
    (∀ e ∈ xs.zipIdx n, P e.1) ↔ ∀ x ∈ xs, P x := by
  conv_rhs => rw [← List.zipIdx_map_fst n xs, List.forall_mem_map]

/-- What is looked up of the omission reviews of a report. -/
def OmissionsReadable (review_bundle report : Dict) : Prop :=
  ∀ item ∈ objects report "omission_reviews", OmissionReadable (known_refs review_bundle) item

/-- The omissions of a report are checked without raising exactly when they are readable. -/
theorem omission_reviews_finish (h : WellFormedBundle review_bundle) :
    Finishes (validate_omission_reviews report review_bundle) ↔
      OmissionsReadable review_bundle report := by
  obtain ⟨article, harticle⟩ := h.article_markdown
  have htext : ∃ text, (Dict.get review_bundle "article_markdown").or_else (.str "") =
      .str text := by
    rw [harticle, Json.or_else]
    split
    · exact ⟨_, rfl⟩
    · exact ⟨_, rfl⟩
  obtain ⟨text, htext⟩ := htext
  unfold validate_omission_reviews OmissionsReadable
  rw [htext, h.known.1, objects_eq]
  refine (finishes_bind_of rfl).trans ?_
  cases Dict.get report "omission_reviews" with
  | list items =>
    refine (finishes_last fun _ => finishes_pure _).trans (finishes_forM.trans ?_)
    simp only [check_omission_finishes]
    rw [forall_zipIdx (P := fun x => ∀ item, x = .obj item →
      OmissionReadable (known_refs review_bundle) item)]
    constructor
    · exact fun hall item hitem => hall _ (mem_dicts.mp hitem) item rfl
    · rintro hall x hx item rfl
      exact hall item (mem_dicts.mpr hx)
  | _ =>
    refine ⟨fun _ item hitem => absurd hitem List.not_mem_nil, fun _ => ?_⟩
    exact (finishes_seq (finishes_complain _)).mpr (finishes_pure _)

/-! ## The validators -/

theorem check_hashes_finishes (report review_bundle : Dict) :
    Finishes (check_hashes rt report review_bundle) :=
  (finishes_seq (finishes_complain_if _ _)).mpr
    ((finishes_seq (finishes_complain_if _ _)).mpr (finishes_complain_if _ _))

/-- An overall verdict is checked without raising exactly when it can be a key. -/
theorem check_overall_finishes :
    Finishes (check_overall report) ↔ (Dict.get report "overall_verdict").hashable = true :=
  (finishes_last fun _ => finishes_complain_if _ _).trans (finishes_lift.trans in_strings_returns)

/-- A scope review is checked without raising exactly when its verdict can be a key, if it is an
object. -/
theorem check_scope_finishes {value : Json} :
    Finishes (check_scope value) ↔
      ∀ scope, value = .obj scope → (Dict.get scope "verdict").hashable = true := by
  cases value with
  | obj scope =>
    refine ((finishes_last fun _ => finishes_complain_if _ _).trans
      (finishes_lift.trans in_strings_returns)).trans ?_
    exact ⟨fun h _ heq => Json.obj.inj heq ▸ h, fun h => h scope rfl⟩
  | _ => exact ⟨fun _ _ hobj => (nomatch hobj), fun _ => finishes_complain _⟩

/-- What is looked up of a single-pass report. -/
structure SingleReadable (review_bundle report : Dict) : Prop where
  claims : ClaimsReadable review_bundle report ReviewReadable
  scope : ∀ scope, Dict.get report "scope_review" = .obj scope →
    (Dict.get scope "verdict").hashable = true
  overall : (Dict.get report "overall_verdict").hashable = true
  omissions : OmissionsReadable review_bundle report

/-- One review is validated without raising exactly when it is readable, field by field. -/
theorem check_review_report_finishes (h : WellFormedBundle review_bundle) :
    Finishes (check_review_report rt report review_bundle) ↔
      SingleReadable review_bundle report := by
  obtain ⟨expected, hexpected, hkeys, -⟩ := h.expected
  obtain ⟨ks, hlisted⟩ :=
    list_or_complain_eq (Dict.get report "claim_reviews") "claim_reviews_missing" []
  have hclaims : Finishes ((items_of (Dict.get report "claim_reviews")).foldlM
      (check_claim_review expected check_claim) []) ↔
        ClaimsReadable review_bundle report ReviewReadable :=
    claim_reviews_finish h hexpected check_claim_finishes []
  have hrun : Finishes (check_review_report rt report review_bundle) ↔
      ClaimsReadable review_bundle report ReviewReadable ∧
        (∀ scope, Dict.get report "scope_review" = .obj scope →
          (Dict.get scope "verdict").hashable = true) ∧
        (Dict.get report "overall_verdict").hashable = true ∧
          OmissionsReadable review_bundle report := by
    unfold check_review_report
    rw [finishes_seq (check_hashes_finishes _ _), finishes_seq (finishes_complain_if _ _),
      finishes_lift_bind hexpected, finishes_bind_of hlisted]
    refine (finishes_bind fun seen => ?_).trans (and_congr_left fun _ => hclaims)
    rw [finishes_seq (check_complete_finishes hkeys _)]
    refine (finishes_bind fun _ => ?_).trans (and_congr_left fun _ => check_scope_finishes)
    refine (finishes_bind fun _ => ?_).trans (and_congr_left fun _ => check_overall_finishes)
    exact (finishes_last fun _ => finishes_pure _).trans (omission_reviews_finish h)
  rw [hrun]
  exact ⟨fun ⟨hc, hs, ho, hom⟩ => ⟨hc, hs, ho, hom⟩,
    fun hr => ⟨hr.claims, hr.scope, hr.overall, hr.omissions⟩⟩

/-- A validation is there when its checks have finished. -/
theorem validate_review_report_returns (h : WellFormedBundle review_bundle) :
    (∃ v, validate_review_report rt report review_bundle = .ok v) ↔
      SingleReadable review_bundle report := by
  obtain ⟨status, hstatus⟩ := h.status
  rw [← check_review_report_finishes h]
  unfold validate_review_report
  constructor
  · rintro ⟨v, hv⟩
    obtain ⟨r, hr, -⟩ := Except.bind_ok.mp hv
    exact ⟨r, hr⟩
  · rintro ⟨r, hr⟩
    exact ⟨_, Except.bind_ok.mpr ⟨r, hr, Except.bind_ok.mpr ⟨status, hstatus, rfl⟩⟩⟩

/-- How many passes a merged report counts, none if it does not count them properly. -/
def pass_count (report : Dict) : ℤ :=
  match Dict.get report "passes" with
  | .int n => if 1 ≤ n then n else 0
  | _ => 0

/-- The number of passes is read without raising, whatever is in its place. -/
theorem check_passes_eq (report : Dict) :
    ∃ ks, check_passes (Dict.get report "passes") = .ok (pass_count report, ks) := by
  unfold check_passes pass_count
  cases Dict.get report "passes" with
  | int n =>
    by_cases hn : 1 ≤ n
    · simp only [if_pos hn]
      exact ⟨[], rfl⟩
    · simp only [if_neg hn]
      exact ⟨_, rfl⟩
  | _ => exact ⟨_, rfl⟩

/-- What is looked up of the scope reviews that a merged report keeps. -/
def ScopesReadable (report : Dict) : Prop :=
  ∀ items, Dict.get report "scope_reviews" = .list items → (items.length : ℤ) = pass_count report →
    ∀ e ∈ items.zipIdx 1, ∀ item, e.1 = .obj item → (Dict.get item "pass").eq (.int e.2) = true →
      (Dict.get item "verdict").hashable = true

/-- A scope review of a merge is checked without raising exactly when its verdict can be a key,
where its pass is right. -/
theorem check_merged_scope_finishes {entry : Json × ℕ} :
    Finishes (check_merged_scope entry) ↔ ∀ item, entry.1 = .obj item →
      (Dict.get item "pass").eq (.int entry.2) = true →
        (Dict.get item "verdict").hashable = true := by
  obtain ⟨value, n⟩ := entry
  cases value with
  | obj item =>
    unfold check_merged_scope
    simp only
    by_cases hpass : (Dict.get item "pass").eq (.int n) = true
    · rw [hpass, if_neg (by simp)]
      refine ((finishes_last fun _ => finishes_complain_if _ _).trans
        (finishes_lift.trans in_strings_returns)).trans ?_
      exact ⟨fun h _ heq _ => Json.obj.inj heq ▸ h, fun h => h item rfl hpass⟩
    · rw [if_pos (by simpa using hpass)]
      refine ⟨fun _ _ heq hpass' => ?_, fun _ => finishes_complain _⟩
      exact absurd (Json.obj.inj heq ▸ hpass') hpass
  | _ => exact ⟨fun _ _ hobj => (nomatch hobj), fun _ => finishes_complain _⟩

/-- The scope reviews of a merge are checked without raising exactly when they are readable. -/
theorem check_merged_scopes_finishes :
    Finishes (check_merged_scopes (Dict.get report "scope_reviews") (pass_count report)) ↔
      ScopesReadable report := by
  unfold check_merged_scopes ScopesReadable
  cases hscopes : Dict.get report "scope_reviews" with
  | null => exact ⟨fun _ _ hlist => (nomatch hlist), fun _ => finishes_pure _⟩
  | list items =>
    simp only
    by_cases hlength : (items.length : ℤ) = pass_count report
    · rw [if_neg (not_not.mpr hlength), finishes_forM]
      simp only [check_merged_scope_finishes]
      exact ⟨fun h _ heq _ => Json.list.inj heq ▸ h, fun h => h items rfl hlength⟩
    · rw [if_pos hlength]
      refine ⟨fun _ _ heq hlength' => ?_, fun _ => finishes_complain _⟩
      exact absurd (Json.list.inj heq ▸ hlength') hlength
  | _ => exact ⟨fun _ _ hlist => (nomatch hlist), fun _ => finishes_complain _⟩

/-- What is looked up of a merged report. -/
structure UnionReadable (review_bundle report : Dict) : Prop where
  claims : ClaimsReadable review_bundle report MergedReadable
  omissions : OmissionsReadable review_bundle report
  overall : (Dict.get report "overall_verdict").hashable = true
  scopes : ScopesReadable report

theorem check_per_pass_finishes (aggregate : Dict) (passes : ℤ) :
    Finishes (check_per_pass aggregate passes) := by
  have hkept : Finishes (per_pass_of aggregate passes) := by
    unfold per_pass_of
    split
    · split
      · exact (finishes_seq (finishes_complain _)).mpr (finishes_pure _)
      · exact (finishes_seq (finishes_complain_if _ _)).mpr (finishes_pure _)
    · exact (finishes_seq (finishes_complain _)).mpr (finishes_pure _)
  refine (finishes_last fun per_pass => ?_).mpr hkept
  refine (finishes_seq (finishes_complain_if _ _)).mpr ?_
  exact (finishes_seq (finishes_complain_if _ _)).mpr (finishes_complain_if _ _)

theorem aggregate_of_finishes (report : Dict) : Finishes (aggregate_of report) := by
  unfold aggregate_of
  split
  · exact finishes_pure _
  · exact (finishes_seq (finishes_complain _)).mpr (finishes_pure _)

theorem check_flag_counts_finishes (report : Dict) (passes : ℤ) (reviews : List Json) :
    Finishes (check_flag_counts report passes reviews) :=
  (finishes_seq (finishes_complain_if _ _)).mpr
    ((finishes_seq (finishes_complain_if _ _)).mpr (finishes_complain_if _ _))

/-- A merged report is checked without raising exactly when it is readable, field by field. -/
theorem check_merged_report_finishes (h : WellFormedBundle review_bundle) :
    Finishes (check_merged_report rt report review_bundle) ↔
      UnionReadable review_bundle report := by
  obtain ⟨status, hstatus⟩ := h.status
  obtain ⟨expected, hexpected, hkeys, -⟩ := h.expected
  obtain ⟨ks, hlisted⟩ :=
    list_or_complain_eq (Dict.get report "claim_reviews") "claim_reviews_missing" []
  obtain ⟨ks', hpasses⟩ := check_passes_eq report
  have hclaims : Finishes ((items_of (Dict.get report "claim_reviews")).foldlM
      (check_claim_review expected (check_merged_claim (pass_count report))) []) ↔
        ClaimsReadable review_bundle report MergedReadable :=
    claim_reviews_finish h hexpected (check_merged_claim_finishes _) []
  -- check by check: all but four of them never raise
  have hrun : Finishes (check_merged_report rt report review_bundle) ↔
      ClaimsReadable review_bundle report MergedReadable ∧ OmissionsReadable review_bundle report ∧
        (Dict.get report "overall_verdict").hashable = true ∧ ScopesReadable report := by
    unfold check_merged_report
    rw [finishes_seq (check_hashes_finishes _ _), finishes_bind_of hpasses,
      finishes_lift_bind hexpected, finishes_bind_of hlisted]
    refine (finishes_bind fun seen => ?_).trans (and_congr_left fun _ => hclaims)
    rw [finishes_seq (check_complete_finishes hkeys _),
      finishes_seq (check_flag_counts_finishes _ _ _)]
    refine (finishes_bind fun omissions => ?_).trans (and_congr_left fun _ =>
      omission_reviews_finish h)
    refine finishes_after (aggregate_of_finishes _) fun aggregate => ?_
    rw [finishes_seq (check_per_pass_finishes _ _), finishes_seq (finishes_complain_if _ _),
      finishes_lift_bind hstatus, finishes_seq (finishes_complain_if _ _)]
    refine (finishes_bind fun _ => ?_).trans (and_congr_left fun _ => check_overall_finishes)
    have hprovenance : Finishes (check_provenance (Dict.get report "review_provenance")
        (pass_count report)) := finishes_complain_if _ _
    rw [finishes_seq hprovenance]
    exact (finishes_last fun _ => finishes_pure _).trans check_merged_scopes_finishes
  rw [hrun]
  exact ⟨fun ⟨hc, ho, hv, hs⟩ => ⟨hc, ho, hv, hs⟩,
    fun hr => ⟨hr.claims, hr.omissions, hr.overall, hr.scopes⟩⟩

/-- The validator of merged reports returns exactly on readable ones. -/
theorem validate_merged_review_report_returns (h : WellFormedBundle review_bundle) :
    (∃ v, validate_merged_review_report rt report review_bundle = .ok v) ↔
      UnionReadable review_bundle report := by
  obtain ⟨status, hstatus⟩ := h.status
  rw [← check_merged_report_finishes h]
  unfold validate_merged_review_report
  constructor
  · rintro ⟨v, hv⟩
    obtain ⟨r, hr, -⟩ := Except.bind_ok.mp hv
    exact ⟨r, hr⟩
  · rintro ⟨r, hr⟩
    exact ⟨_, Except.bind_ok.mpr ⟨r, hr, Except.bind_ok.mpr ⟨status, hstatus, rfl⟩⟩⟩

/-! ## Findings and rulings -/

/-- `for … in value or []` does not raise. -/
def iterable : Json → Bool
  | .list _ | .str _ | .obj _ => true
  | value => !value.truthy

/-- `(value or {}).get(…)` does not raise. -/
def record : Json → Bool
  | .obj _ => true
  | value => !value.truthy

/-- The entries of a value are read exactly when it can be iterated over. -/
theorem entries_returns {value : Json} :
    (∃ xs, entries value = .ok xs) ↔ iterable value = true := by
  have hfalsy : value.truthy = false → ∃ xs, entries value = .ok xs := by
    intro h
    rw [entries, Json.or_else, h, if_neg (by simp)]
    exact ⟨[], rfl⟩
  cases value with
  | list xs => exact ⟨fun _ => rfl, fun _ => ⟨xs, entries_list xs⟩⟩
  | str s =>
    refine ⟨fun _ => rfl, fun _ => ?_⟩
    by_cases h : (Json.str s).truthy = true
    · rw [entries, Json.or_else, if_pos h]
      exact ⟨_, rfl⟩
    · exact hfalsy (Bool.not_eq_true _ |>.mp h)
  | obj d =>
    refine ⟨fun _ => rfl, fun _ => ?_⟩
    by_cases h : (Json.obj d).truthy = true
    · rw [entries, Json.or_else, if_pos h]
      exact ⟨_, rfl⟩
    · exact hfalsy (Bool.not_eq_true _ |>.mp h)
  | _ =>
    simp only [iterable, Bool.not_eq_true']
    refine ⟨?_, hfalsy⟩
    rintro ⟨xs, hxs⟩
    by_contra h
    rw [entries, Json.or_else, if_pos (Bool.not_eq_false _ |>.mp h)] at hxs
    cases hxs

/-- A field of a record is read exactly when the record is an object, or falsy. -/
theorem record_returns {value : Json} {field : String} :
    (∃ x, (value.or_else (.obj [])).get field = .ok x) ↔ record value = true := by
  unfold Json.or_else
  cases value with
  | obj d =>
    refine ⟨fun _ => rfl, fun _ => ?_⟩
    split
    · exact ⟨_, rfl⟩
    · exact ⟨_, rfl⟩
  | _ =>
    simp only [record, Bool.not_eq_true']
    split
    · rename_i htruthy
      exact ⟨fun ⟨_, h⟩ => (nomatch h), fun h => absurd (h.symm.trans htruthy) (by simp)⟩
    · rename_i hfalsy
      exact ⟨fun _ => Bool.not_eq_true _ |>.mp hfalsy, fun _ => ⟨_, rfl⟩⟩

/-- Only a list has objects among what is run through. -/
theorem dicts_entries {value : Json} {xs : List Json} (h : entries value = .ok xs) :
    dicts xs = dicts (items_of value) := by
  have hnone : ∀ ys : List String, dicts (ys.map .str) = [] := by
    intro ys
    induction ys with
    | nil => rfl
    | cons y ys ih => exact ih
  rw [entries, Json.or_else] at h
  split at h
  · cases value with
    | list ys =>
      cases h
      rfl
    | str s =>
      cases h
      have hchars := hnone (s.toList.map String.singleton)
      rw [List.map_map] at hchars
      exact hchars
    | obj d =>
      cases h
      have hkeys := hnone (d.map Prod.fst)
      rw [List.map_map] at hkeys
      exact hkeys
    | _ => cases h
  · cases h
    cases value with
    | list ys =>
      cases ys with
      | nil => rfl
      | cons y ys => exact absurd rfl ‹¬_›
    | _ => rfl

/-- What is run through of a report when its findings are collected. -/
structure Collectable (report : Dict) : Prop where
  claims : iterable (Dict.get report "claim_reviews") = true
  findings : Dict.contains report "passes" = true → ∀ claim ∈ objects report "claim_reviews",
    iterable (Dict.get claim "findings") = true
  omissions : iterable (Dict.get report "omission_reviews") = true
  validation : Dict.contains report "passes" = true →
    (∃ items, Dict.get report "scope_reviews" = .list items) ∨
      record (Dict.get report "validation") = true

/-- The findings of a claim are collected exactly when they can be iterated over, in a merge. -/
theorem claim_findings_returns {merged : Bool} {claim : Dict} :
    (∃ found, claim_findings rt merged claim = .ok found) ↔
      (merged = true → iterable (Dict.get claim "findings") = true) := by
  cases merged with
  | false =>
    refine ⟨fun _ h => (by cases h), fun _ => ?_⟩
    rw [claim_findings, if_neg (by simp)]
    split
    · exact ⟨_, rfl⟩
    · exact ⟨_, rfl⟩
  | true =>
    rw [claim_findings, if_pos rfl, ← entries_returns]
    constructor
    · rintro ⟨found, hfound⟩ -
      obtain ⟨xs, hxs, -⟩ := Except.bind_ok.mp hfound
      exact ⟨xs, hxs⟩
    · intro h
      obtain ⟨xs, hxs⟩ := h rfl
      exact ⟨_, Except.bind_ok.mpr ⟨xs, hxs, rfl⟩⟩

/-- The findings about the scope are collected exactly when there is a list of them, or a record to
read. -/
theorem scope_findings_returns {merged : Bool} :
    (∃ found, scope_findings rt merged report = .ok found) ↔
      (merged = true → (∃ items, Dict.get report "scope_reviews" = .list items) ∨
        record (Dict.get report "validation") = true) := by
  have hget := @record_returns (Dict.get report "validation") "scope_clean"
  cases merged with
  | false =>
    refine ⟨fun _ h => (by cases h), fun _ => ?_⟩
    rw [scope_findings, if_neg (by simp)]
    split
    · exact ⟨_, rfl⟩
    · exact ⟨_, rfl⟩
  | true =>
    rw [scope_findings, if_pos rfl]
    split
    · exact ⟨fun _ _ => .inl ⟨_, ‹_›⟩, fun _ => ⟨_, rfl⟩⟩
    · rename_i hnot
      constructor
      · rintro ⟨found, hfound⟩ -
        obtain ⟨clean, hclean, -⟩ := Except.bind_ok.mp hfound
        exact .inr (hget.mp ⟨clean, hclean⟩)
      · intro h
        rcases h rfl with ⟨items, hitems⟩ | h
        · exact absurd hitems (hnot items)
        · obtain ⟨clean, hclean⟩ := hget.mpr h
          exact ⟨_, Except.bind_ok.mpr ⟨clean, hclean, rfl⟩⟩

/-- All findings of a report are collected exactly when those of its claims and of its scope are. -/
theorem collect_review_findings_returns :
    (∃ found, collect_review_findings rt report = .ok found) ↔ Collectable report := by
  unfold collect_review_findings
  constructor
  · rintro ⟨found, hfound⟩
    obtain ⟨claims, hclaims, hfound⟩ := Except.bind_ok.mp hfound
    obtain ⟨each, heach, hfound⟩ := Except.bind_ok.mp hfound
    obtain ⟨omissions, homissions, hfound⟩ := Except.bind_ok.mp hfound
    obtain ⟨scope, hscope, -⟩ := Except.bind_ok.mp hfound
    refine ⟨entries_returns.mp ⟨_, hclaims⟩, fun hmerged claim hclaim => ?_,
      entries_returns.mp ⟨_, homissions⟩, scope_findings_returns.mp ⟨_, hscope⟩⟩
    rw [objects_eq, ← dicts_entries hclaims] at hclaim
    exact claim_findings_returns.mp (Except.mapM_returns.mp ⟨_, heach⟩ claim hclaim) hmerged
  · intro h
    obtain ⟨claims, hclaims⟩ := entries_returns.mpr h.claims
    obtain ⟨omissions, homissions⟩ := entries_returns.mpr h.omissions
    obtain ⟨scope, hscope⟩ := @scope_findings_returns rt report _ |>.mpr h.validation
    have heach : ∃ each, (dicts claims).mapM
        (claim_findings rt (Dict.contains report "passes")) = .ok each := by
      refine Except.mapM_returns.mpr fun claim hclaim => ?_
      rw [dicts_entries hclaims, ← objects_eq] at hclaim
      exact claim_findings_returns.mpr fun hmerged => h.findings hmerged claim hclaim
    obtain ⟨each, heach⟩ := heach
    exact ⟨_, Except.bind_ok.mpr ⟨_, hclaims, Except.bind_ok.mpr ⟨_, heach,
      Except.bind_ok.mpr ⟨_, homissions, Except.bind_ok.mpr ⟨_, hscope, rfl⟩⟩⟩⟩⟩

/-- The ids of the findings of a report. -/
def finding_ids (rt : Runtime) (report : Dict) : List String :=
  (((collect_review_findings rt report).toOption.getD []).map Finding.finding_id).dedup

/-- What is looked up of a ruling on one of these ids. -/
def RulingReadable (ids : List String) (ruling : Dict) : Prop :=
  ∀ id ∈ ids, Dict.get ruling "finding_id" = .str id →
    (Dict.get ruling "decision").hashable = true ∧
      ((Dict.get ruling "decision").elem (DECISIONS.map .str) = true →
        blank (Dict.get ruling "reason") = false → (Dict.get ruling "category").hashable = true)

def RulingsReadable (ids : List String) (adjudication : Dict) : Prop :=
  ∀ ruling ∈ objects adjudication "findings", RulingReadable ids ruling

/-- A ruling is checked without raising exactly when it is readable, if it is an object. -/
theorem check_ruling_finishes (ids : List String) (r : Rulings) (entry : Json × ℕ) :
    Finishes (check_ruling ids r entry) ↔
      ∀ ruling, entry.1 = .obj ruling → RulingReadable ids ruling := by
  obtain ⟨value, n⟩ := entry
  have hwrong : ∀ (k : Json) (r : Rulings),
      Finishes (do Check.complain k; pure r : Check Error Json Rulings) :=
    fun k r => (finishes_seq (finishes_complain k)).mpr (finishes_pure r)
  -- a complaint ends the ruling without raising; only a membership test of a value without
  -- a hash raises
  cases value with
  | obj ruling =>
    have hobj : ∀ P : Dict → Prop, (∀ ruling', Json.obj ruling = .obj ruling' → P ruling') ↔
        P ruling :=
      fun P => ⟨fun h => h ruling rfl, fun h _ heq => Json.obj.inj heq ▸ h⟩
    rw [hobj]
    unfold check_ruling RulingReadable
    simp only
    cases hid : Dict.get ruling "finding_id" with
    | str id =>
      simp only
      rw [finishes_seq (finishes_complain_if _ _)]
      by_cases hmem : id ∈ ids
      · rw [if_neg (not_not.mpr hmem)]
        have hone : ∀ P : Prop, (∀ id' ∈ ids, Json.str id = .str id' → P) ↔ P :=
          fun P => ⟨fun h => h id hmem rfl, fun h _ _ _ => h⟩
        rw [hone]
        by_cases hhash : (Dict.get ruling "decision").hashable = true
        · have hset : (Dict.get ruling "decision").in_strings DECISIONS =
              .ok ((Dict.get ruling "decision").elem (DECISIONS.map .str)) := by
            rw [Json.in_strings, Json.in_set, if_pos hhash]
          rw [finishes_lift_bind hset]
          simp only [hhash, true_and]
          cases (Dict.get ruling "decision").elem (DECISIONS.map .str) with
          | false =>
            rw [if_pos rfl]
            exact ⟨fun _ h => (by cases h), fun _ => hwrong _ _⟩
          | true =>
            rw [if_neg (by simp)]
            cases hblank : blank (Dict.get ruling "reason") with
            | true =>
              rw [if_pos rfl]
              exact ⟨fun _ _ h => (by cases h), fun _ => hwrong _ _⟩
            | false =>
              rw [if_neg (by simp)]
              refine (finishes_last fun allowed => ?_).trans
                ((finishes_lift.trans in_strings_returns).trans ⟨fun h _ _ => h,
                  fun h => h rfl rfl⟩)
              cases allowed with
              | false => exact hwrong _ _
              | true => exact finishes_pure _
        · refine ⟨fun h => ?_, fun h => absurd h.1 hhash⟩
          exact absurd (in_strings_returns.mp (finishes_lift.mp h.left)) hhash
      · rw [if_pos hmem]
        refine ⟨fun _ id' hid' heq => ?_,
          fun _ => (finishes_seq (finishes_complain _)).mpr (finishes_pure _)⟩
        exact absurd (Json.str.inj heq ▸ hid') hmem
    | _ => exact ⟨fun _ _ _ heq => (by cases heq), fun _ => hwrong _ _⟩
  | _ => exact ⟨fun _ _ heq => (by cases heq), fun _ => hwrong _ _⟩

/-- An adjudication is checked without raising exactly when its rulings are readable. -/
theorem check_adjudication_finishes {ids : List String} {adjudication : Dict} :
    Finishes (check_adjudication rt adjudication report ids) ↔
      RulingsReadable ids adjudication := by
  obtain ⟨ks, hlisted⟩ :=
    list_or_complain_eq (Dict.get adjudication "findings") "adjudication_findings_missing" []
  have hhash : ∀ field value expected,
      Finishes (check_hash "adjudication_hash_mismatch" field value expected) :=
    fun _ _ _ => finishes_complain_if _ _
  have hloop :
      Finishes ((items_of (Dict.get adjudication "findings")).zipIdx.foldlM (check_ruling ids)
      ⟨[], 0, 0, 0⟩) ↔ RulingsReadable ids adjudication := by
    refine (finishes_foldlM (fun entry _ r => check_ruling_finishes ids r entry) _).trans ?_
    rw [forall_zipIdx (P := fun x => ∀ ruling, x = .obj ruling → RulingReadable ids ruling),
      RulingsReadable, objects_eq]
    constructor
    · exact fun h ruling hruling => h _ (mem_dicts.mp hruling) ruling rfl
    · rintro h x hx ruling rfl
      exact h ruling (mem_dicts.mpr hx)
  unfold check_adjudication
  rw [finishes_seq (finishes_complain_if _ _), finishes_seq (hhash _ _ _),
    finishes_seq (hhash _ _ _), finishes_seq (hhash _ _ _), finishes_bind_of hlisted, ← hloop]
  exact finishes_last fun r => (finishes_seq (finishes_complain_if _ _)).mpr (finishes_pure _)

/-- The validator of adjudications returns exactly when the findings can be collected and the
rulings read. -/
theorem validate_adjudication_returns {adjudication : Option Dict} :
    (∃ v, validate_adjudication rt adjudication report = .ok v) ↔
      Collectable report ∧ ∀ a, adjudication = some a →
        RulingsReadable (finding_ids rt report) a := by
  unfold validate_adjudication
  rw [← @collect_review_findings_returns rt report]
  constructor
  · rintro ⟨v, hv⟩
    obtain ⟨found, hfound, hv⟩ := Except.bind_ok.mp hv
    refine ⟨⟨found, hfound⟩, ?_⟩
    rintro a rfl
    obtain ⟨r, hr, -⟩ := Except.bind_ok.mp hv
    rw [finding_ids, hfound]
    exact check_adjudication_finishes.mp ⟨r, hr⟩
  · rintro ⟨⟨found, hfound⟩, hrulings⟩
    cases adjudication with
    | none => exact ⟨_, Except.bind_ok.mpr ⟨found, hfound, rfl⟩⟩
    | some a =>
      have ha := hrulings a rfl
      rw [finding_ids, hfound] at ha
      obtain ⟨r, hr⟩ := (@check_adjudication_finishes rt report _ a).mpr ha
      exact ⟨_, Except.bind_ok.mpr ⟨found, hfound, Except.bind_ok.mpr ⟨r, hr, rfl⟩⟩⟩

/-- What is looked up of a report, merged or not. -/
def ReportReadable (review_bundle report : Dict) : Prop :=
  (Dict.contains report "passes" = true → UnionReadable review_bundle report) ∧
    (Dict.contains report "passes" = false → SingleReadable review_bundle report)

/-- The validator of reports returns exactly on readable ones, merged or not. -/
theorem validate_report_returns (h : WellFormedBundle review_bundle) :
    (∃ v, validate_report rt report review_bundle = .ok v) ↔
      ReportReadable review_bundle report := by
  unfold validate_report ReportReadable
  cases Dict.contains report "passes" with
  | true =>
    rw [if_pos rfl, validate_merged_review_report_returns h]
    exact ⟨fun hr => ⟨fun _ => hr, fun hx => (by cases hx)⟩, fun hr => hr.1 rfl⟩
  | false =>
    rw [if_neg (by simp), validate_review_report_returns h]
    exact ⟨fun hr => ⟨fun hx => (by cases hx), fun _ => hr⟩, fun hr => hr.2 rfl⟩

/-- A valid merged report counts its passes, so the count can be compared. -/
theorem valid_passes_returns {v : Validation}
    (h : validate_report rt report review_bundle = .ok v) :
    ∃ too_few, (if v.report_valid then (if Dict.contains report "passes" then
      (Dict.get report "passes").or_else (.int 0) else .int 1) else .int 0 : Json).lt (.int 1) =
        .ok too_few := by
  have hint : ∀ n : ℤ, ∃ b, (Json.int n).lt (.int 1) = .ok b := fun n => ⟨_, rfl⟩
  cases hvalid : v.report_valid with
  | false => exact hint 0
  | true =>
    rw [if_pos rfl]
    unfold validate_report at h
    cases hmerged : Dict.contains report "passes" with
    | false => exact hint 1
    | true =>
      rw [hmerged, if_pos rfl] at h
      obtain ⟨r, aggregate, passes, haccepts⟩ := validate_merged_valid.mp ⟨v, h, hvalid⟩
      obtain ⟨hpasses, hone⟩ := check_passes_clean.mp haccepts.count
      have htruthy : (Json.int passes).truthy = true := decide_eq_true (by omega)
      rw [if_pos rfl, hpasses, Json.or_else, if_pos htruthy]
      exact hint passes

/-- The publication gate returns exactly when report, findings and rulings can be read. -/
theorem validate_review_artifact_returns (h : WellFormedBundle review_bundle)
    {adjudication : Option Dict} :
    (∃ v, validate_review_artifact rt report review_bundle adjudication = .ok v) ↔
      ReportReadable review_bundle report ∧ Collectable report ∧
        ∀ a, adjudication = some a → RulingsReadable (finding_ids rt report) a := by
  rw [← validate_adjudication_returns, ← @validate_report_returns rt report _ h]
  unfold validate_review_artifact
  constructor
  · rintro ⟨v, hv⟩
    obtain ⟨review, hreview, hv⟩ := Except.bind_ok.mp hv
    obtain ⟨ruled, hruled, -⟩ := Except.bind_ok.mp hv
    exact ⟨⟨review, hreview⟩, ⟨ruled, hruled⟩⟩
  · rintro ⟨⟨review, hreview⟩, ⟨ruled, hruled⟩⟩
    obtain ⟨found, hfound⟩ := collect_review_findings_returns.mpr
      (validate_adjudication_returns.mp ⟨ruled, hruled⟩).1
    obtain ⟨too_few, htoo_few⟩ := valid_passes_returns hreview
    exact ⟨_, Except.bind_ok.mpr ⟨review, hreview, Except.bind_ok.mpr ⟨ruled, hruled,
      Except.bind_ok.mpr ⟨found, hfound, Except.bind_ok.mpr ⟨too_few, htoo_few, rfl⟩⟩⟩⟩⟩

end Memline.wiki

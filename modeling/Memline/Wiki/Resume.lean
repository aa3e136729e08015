/-
What a second profiling pass does with what the first has left.

A batch is settled when its artifact names the digest of its memories. Only an answer that is ok
settles a batch: a refusal is kept in the same place but names no digest, so that the next pass
puts it aside and asks again. And the digest is that of the ids: a text that has changed in place
leaves a batch settled.
-/
import Memline.Wiki.Profile

set_option autoImplicit false

namespace Memline.wiki.profile

open Py

/-! ## Names -/

/-- An id that is the name of a batch and of nothing else in the directory. -/
structure Proper (id : String) : Prop where
  no_dot : '.' ∉ id.toList
  not_own : id ≠ "_failures" ∧ id ≠ "_sanitization"

/-- A plan names its batches apart. -/
structure Labelled (plan : List Batch) : Prop where
  nodup : (plan.map Batch.batch_id).Nodup
  proper : ∀ b ∈ plan, Proper b.batch_id

/-- A batch id is `b` and its number to three digits. -/
theorem toList_batch_id (i : ℕ) : (batch_id i).toList
    = 'b' :: (List.replicate (3 - (toString i).length) '0' ++ Nat.toDigits 10 i) := by
  rw [batch_id, String.toList_append, String.toList_append, String.toList_ofList,
    String.toList_ofList, toList_toString_nat, List.append_assoc, List.singleton_append]

theorem batch_id_inj {i j : ℕ} (h : batch_id i = batch_id j) : i = j := by
  have hlists := congrArg String.toList h
  rw [toList_batch_id, toList_batch_id, List.cons.injEq] at hlists
  have hvalue : ∀ k n : ℕ, Nat.ofDigitChars 10 (List.replicate k '0' ++ Nat.toDigits 10 n) 0 =
      n := by
    intro k n
    rw [Nat.ofDigitChars_append, Nat.ofDigitChars_replicate_zero, Nat.mul_zero,
      Nat.ofDigitChars_ten_toDigits]
  rw [← hvalue _ i, hlists.2, hvalue]

theorem proper_batch_id (i : ℕ) : Proper (batch_id i) := by
  have hdigits : ∀ c ∈ (batch_id i).toList, c = 'b' ∨ c.isDigit = true := by
    intro c hc
    rw [toList_batch_id, List.mem_cons, List.mem_append] at hc
    rcases hc with rfl | hc | hc
    · exact .inl rfl
    · rw [List.eq_of_mem_replicate hc]
      exact .inr (by decide)
    · exact .inr (Nat.isDigit_of_mem_toDigits (by decide) (by decide) hc)
  have hnot : ∀ c : Char, c ≠ 'b' → c.isDigit = false → c ∉ (batch_id i).toList := by
    intro c hb hd hc
    rcases hdigits c hc with rfl | hdigit
    · exact hb rfl
    · rw [hd] at hdigit
      cases hdigit
  have hlow := hnot '_' (by decide) (by decide)
  exact ⟨hnot '.' (by decide) (by decide), fun h => hlow (by rw [h]; decide),
    fun h => hlow (by rw [h]; decide)⟩

/-- So does every plan that is made of the store. -/
theorem labelled_of_plan {key : Memory → String} {rt : Runtime} {memories : List Memory}
    {since : Option String} {n : ℕ} {threshold : ℤ} {plan : List Batch}
    (h : plan_batches key rt memories since n threshold = .ok plan) : Labelled plan := by
  obtain ⟨ms, -, h⟩ := Except.bind_ok.mp h
  obtain ⟨g, -, h⟩ := Except.bind_ok.mp h
  obtain ⟨p, -, h⟩ := Except.bind_ok.mp h
  obtain ⟨chunks, -, h⟩ := Except.bind_ok.mp h
  cases h
  constructor
  · have hids : ∀ bs : List Batch,
        ((bs.mapIdx fun i b => { b with batch_id := batch_id i }).map Batch.batch_id)
        = (List.range bs.length).map batch_id := by
      intro bs
      refine List.ext_getElem (by simp) fun i h₁ h₂ => ?_
      simp
    rw [hids]
    exact List.Nodup.map (fun i j hij => batch_id_inj hij) List.nodup_range
  · intro b hb
    obtain ⟨i, hi, rfl⟩ := List.mem_mapIdx.mp hb
    exact proper_batch_id i

theorem artifact_inj {x y : String} (h : artifact x = artifact y) : x = y := by
  have hlists := congrArg String.toList h
  rw [artifact, artifact, String.toList_append, String.toList_append] at hlists
  exact String.toList_inj.mp (List.append_cancel_right hlists)

/-- No artifact is named like one that was superseded. -/
theorem Proper.ne_superseded {x : String} (hx : Proper x) (y start : String) :
    artifact x ≠ y ++ ".superseded-" ++ start ++ ".json" := by
  intro h
  have hx' : x = y ++ ".superseded-" ++ start := artifact_inj h
  refine hx.no_dot ?_
  have hdot : '.' ∈ ".superseded-".toList := by decide
  rw [hx', String.toList_append, String.toList_append]
  exact List.mem_append_left _ (List.mem_append_right _ hdot)

/-- No artifact is named like the files of the pass itself. -/
theorem Proper.ne_own {x : String} (hx : Proper x) :
    artifact x ≠ "_failures.json" ∧ artifact x ≠ "_sanitization.json" := by
  refine ⟨fun h => hx.not_own.1 (artifact_inj ?_), fun h => hx.not_own.2 (artifact_inj ?_)⟩
  · rw [h]
    rfl
  · rw [h]
    rfl

/-! ## Settled batches -/

section pass

variable {rt : Runtime} {cls : Classes} {pass : Pass} {files files' : Files} {b : Batch}

/-- The artifact of the batch says that it covers its memories. -/
def Settled (rt : Runtime) (files : Files) (b : Batch) : Prop :=
  ∃ existing, files (artifact b.batch_id) = some (some existing) ∧
    existing.get "covers" = .ok (.str (coverage_digest rt b))

/-- Every session of the batch can be named in a prompt. -/
def Promptable (b : Batch) : Prop := ∃ ids, joined b.session_ids = .ok ids

/-- Whether a batch is settled is read from its artifact. -/
theorem Settled.congr (h : files (artifact b.batch_id) = files' (artifact b.batch_id)) :
    Settled rt files b ↔ Settled rt files' b := by
  rw [Settled, Settled, h]

/-- A settled batch is left alone; any other is to be profiled, and its artifact may be put
aside. -/
theorem needs_profiling_cases {needed : Bool}
    (h : needs_profiling rt files b = .ok (files', needed)) :
    (Settled rt files b ∧ files' = files ∧ needed = false) ∨
      (¬ Settled rt files b ∧ needed = true ∧
        (files' = files ∨ ∃ start,
          files' = rename files (artifact b.batch_id) (b.batch_id ++ ".superseded-" ++ start ++
            ".json"))) := by
  unfold needs_profiling at h
  split at h
  · rename_i hfile
    cases h
    refine .inr ⟨?_, rfl, .inl rfl⟩
    rintro ⟨existing, hsome, -⟩
    rw [hfile] at hsome
    cases hsome
  · rename_i hfile
    cases h
    refine .inr ⟨?_, rfl, .inl rfl⟩
    rintro ⟨existing, hsome, -⟩
    rw [hfile] at hsome
    cases hsome
  · rename_i existing hfile
    obtain ⟨covers, hcovers, h⟩ := Except.bind_ok.mp h
    -- an artifact settles its batch when it covers the same memories
    have hsettled : Settled rt files b ↔ covers = .str (coverage_digest rt b) := by
      constructor
      · rintro ⟨existing', hsome, hget⟩
        rw [hfile, Option.some.injEq, Option.some.injEq] at hsome
        rw [← hsome, hcovers, Except.ok.injEq] at hget
        exact hget
      · intro heq
        exact ⟨existing, hfile, heq ▸ hcovers⟩
    split at h
    · rename_i heq
      cases h
      exact .inl ⟨hsettled.mpr (Json.eq_str.mp heq), rfl, rfl⟩
    · rename_i hne
      have hnot : ¬ Settled rt files b := fun hs => hne (Json.eq_str.mpr (hsettled.mp hs))
      obtain ⟨start, -, h⟩ := Except.bind_ok.mp h
      dsimp only at h
      split at h
      · cases h
        exact .inr ⟨hnot, rfl, .inl rfl⟩
      · cases h
        exact .inr ⟨hnot, rfl, .inr ⟨start, rfl⟩⟩

/-- What is put aside of one batch is no artifact of another. -/
theorem rename_other {x y start : String} (hx : Proper x) (hne : x ≠ y) :
    rename files (artifact y) (y ++ ".superseded-" ++ start ++ ".json") (artifact x) =
      files (artifact x) := by
  rw [rename, Function.update_of_ne (fun h => hne (artifact_inj h)),
    Function.update_of_ne (hx.ne_superseded y start)]

/-- Putting an artifact aside settles nothing. -/
theorem rename_unsettled {start : String} :
    ¬ Settled rt (rename files (artifact b.batch_id) (b.batch_id ++ ".superseded-" ++ start ++
      ".json")) b := by
  rintro ⟨existing, hsome, -⟩
  rw [rename, Function.update_self] at hsome
  cases hsome

/-- To be profiled is what is not settled, and the looking settles nothing and unsettles nothing. -/
theorem to_do_spec {bs todo : List Batch} (hbs : Labelled bs)
    (h : to_do rt files bs = .ok (files', todo)) :
    todo.Sublist bs ∧ (∀ b ∈ bs, b ∈ todo ↔ ¬ Settled rt files b) ∧ (∀ b ∈ bs, Settled rt files' b ↔
      Settled rt files b) ∧
      ∀ x, Proper x → x ∉ bs.map Batch.batch_id → files' (artifact x) = files (artifact x) := by
  -- the batches have ids of their own, so that setting one aside leaves the artifacts of
  -- the others
  induction bs generalizing files todo with
  | nil =>
    cases h
    simp
  | cons b bs ih =>
    obtain ⟨⟨files₁, needed⟩, hb, h⟩ := Except.bind_ok.mp h
    obtain ⟨⟨files₂, rest⟩, hrest, h⟩ := Except.bind_ok.mp h
    cases h
    have hnodup := hbs.nodup
    rw [List.map_cons, List.nodup_cons] at hnodup
    have hproper := List.forall_mem_cons.mp hbs.proper
    obtain ⟨hsub, htodo, hkept, hother⟩ := ih ⟨hnodup.2, hproper.2⟩ hrest
    have hfirst : (needed = true ↔ ¬ Settled rt files b) ∧ (Settled rt files₁ b ↔
        Settled rt files b) ∧
        ∀ x, Proper x → x ≠ b.batch_id → files₁ (artifact x) = files (artifact x) := by
      rcases needs_profiling_cases hb with ⟨hsettled, rfl, rfl⟩ |
        ⟨hsettled, rfl, rfl | ⟨start, rfl⟩⟩
      · exact ⟨by simp [hsettled], .rfl, fun _ _ _ => rfl⟩
      · exact ⟨by simp [hsettled], .rfl, fun _ _ _ => rfl⟩
      · exact ⟨by simp [hsettled], by simp [hsettled, rename_unsettled],
          fun x hx hne => rename_other hx hne⟩
    obtain ⟨hneeded, hsame, hothers⟩ := hfirst
    have hlater : ∀ c ∈ bs, c.batch_id ≠ b.batch_id := by
      intro c hc heq
      exact hnodup.1 (heq ▸ List.mem_map_of_mem hc)
    have hcongr : ∀ c ∈ bs, Settled rt files₁ c ↔ Settled rt files c := fun c hc =>
      Settled.congr (hothers _ (hproper.2 c hc) (hlater c hc))
    refine ⟨?_, ?_, ?_, ?_⟩
    · cases needed with
      | true => exact hsub.cons_cons b
      | false => exact hsub.cons b
    · intro c hc
      rcases List.mem_cons.mp hc with rfl | hc
      · rw [← hneeded]
        cases needed with
        | true => simp
        | false =>
          have hnot : c ∉ rest := fun hmem => hlater c (hsub.subset hmem) rfl
          simpa using hnot
      · have hne : c ≠ b := fun heq => hlater c hc (by rw [heq])
        rw [← hcongr c hc, ← htodo c hc]
        cases needed with
        | true => simp [hne]
        | false => rfl
    · intro c hc
      rcases List.mem_cons.mp hc with rfl | hc
      · rw [← hsame]
        exact Settled.congr (hother _ hproper.1 hnodup.1)
      · exact (hkept c hc).trans (hcongr c hc)
    · intro x hx hnot
      rw [List.map_cons, List.mem_cons, not_or] at hnot
      rw [hother x hx hnot.2, hothers x hx hnot.1]

/-! ## The calls of a pass -/

/-- A batch whose prompt cannot be made is passed over; any other is answered, and the answer is
kept unless the call failed. -/
theorem run_cases (rt : Runtime) (pass : Pass) (b : Batch) (p : Progress) :
    (¬ Promptable b ∧ (run rt pass p b).answers = p.answers ∧ (run rt pass p b).files = p.files) ∨
      (Promptable b ∧ ∃ answer : Answer,
        (run rt pass p b).answers = p.answers ++ [(b.batch_id, answer.status)] ∧
        (run rt pass p b).files = if answer.status = .failed then p.files
          else write p.files (artifact b.batch_id) (record rt b answer)) := by
  unfold run
  rcases (material rt pass.texts b).run p.sanitizer with ⟨m, s⟩
  dsimp only
  cases hrender : render pass.template b m with
  | error e =>
    refine .inl ⟨?_, rfl, rfl⟩
    rintro ⟨ids, hids⟩
    rw [render, hids] at hrender
    cases hrender
  | ok prompt =>
    obtain ⟨ids, hids, -⟩ := Except.bind_ok.mp hrender
    refine .inr ⟨⟨ids, hids⟩, pass.model b.batch_id prompt, ?_⟩
    dsimp only
    cases pass.model b.batch_id prompt with
    | ok data provenance => exact ⟨rfl, rfl⟩
    | refused detail => exact ⟨rfl, rfl⟩
    | failed detail => exact ⟨rfl, rfl⟩

/-- Only an ok answer settles its batch. -/
theorem settled_record {answer : Answer} (h : answer.status ≠ .failed) :
    Settled rt (write files (artifact b.batch_id) (record rt b answer)) b ↔
      answer.status = .ok := by
  have hfile : write files (artifact b.batch_id) (record rt b answer) (artifact b.batch_id)
      = some (some (record rt b answer)) := Function.update_self ..
  cases answer with
  | ok data provenance => exact ⟨fun _ => rfl, fun _ => ⟨_, hfile, rfl⟩⟩
  | failed detail => exact absurd rfl h
  | refused detail =>
    refine ⟨?_, nofun⟩
    rintro ⟨existing, hsome, hget⟩
    rw [hfile, Option.some.injEq, Option.some.injEq] at hsome
    rw [← hsome] at hget
    cases hget

/-- What the calls for some batches add to the answers, and what they settle. -/
structure Called (rt : Runtime) (todo : List Batch) (p q : Progress)
    (new : List (String × Status)) : Prop where
  answers : q.answers = p.answers ++ new
  settled : ∀ b ∈ todo, Settled rt q.files b ↔ (b.batch_id, Status.ok) ∈ new
  asked : ∀ b ∈ todo, (∃ s, (b.batch_id, s) ∈ new) ↔ Promptable b
  only : ∀ e ∈ new, e.1 ∈ todo.map Batch.batch_id
  other : ∀ x, x ∉ todo.map Batch.batch_id → q.files (artifact x) = p.files (artifact x)

/-- The calls for one batch. -/
theorem called_one (pass : Pass) (p : Progress) (hb : ¬ Settled rt p.files b) :
    ∃ new, Called rt [b] p (run rt pass p b) new := by
  rcases run_cases rt pass b p with ⟨hnot, hanswers, hfiles⟩ | ⟨hprompt, answer, hanswers, hfiles⟩
  · refine ⟨[], by rw [hanswers, List.append_nil], ?_, ?_, ?_, ?_⟩
    · simpa [hfiles] using hb
    · simpa using hnot
    · simp
    · intro x _
      rw [hfiles]
  · refine ⟨[(b.batch_id, answer.status)], hanswers, ?_, ?_, ?_, ?_⟩
    · intro c hc
      rw [List.mem_singleton] at hc
      subst hc
      by_cases hfailed : answer.status = .failed
      · simp [hfiles, hfailed, hb]
      · rw [hfiles, if_neg hfailed, settled_record hfailed]
        simp [eq_comm]
    · simpa using hprompt
    · simp
    · intro x hx
      rw [List.map_singleton, List.mem_singleton] at hx
      rw [hfiles]
      split
      · rfl
      · exact Function.update_of_ne (fun h => hx (artifact_inj h)) _ _

/-- The calls for all of them, one after the other. -/
theorem called_all (pass : Pass) {todo : List Batch} (hnodup : (todo.map Batch.batch_id).Nodup)
    (p : Progress) (hsettled : ∀ b ∈ todo, ¬ Settled rt p.files b) :
    ∃ new, Called rt todo p (todo.foldl (run rt pass) p) new := by
  induction todo generalizing p with
  | nil => exact ⟨[], by simp, by simp, by simp, by simp, fun _ _ => rfl⟩
  | cons b bs ih =>
    rw [List.map_cons, List.nodup_cons] at hnodup
    obtain ⟨first, h₁⟩ := called_one pass p (hsettled b List.mem_cons_self)
    have hlater : ∀ c ∈ bs, c.batch_id ≠ b.batch_id := by
      intro c hc heq
      exact hnodup.1 (heq ▸ List.mem_map_of_mem hc)
    -- a call writes the artifact of its own batch only
    have hkept : ∀ c ∈ bs, ¬ Settled rt (run rt pass p b).files c := by
      intro c hc
      rw [Settled.congr (h₁.other _ (by simpa using hlater c hc))]
      exact hsettled c (List.mem_cons_of_mem _ hc)
    obtain ⟨rest, h₂⟩ := ih hnodup.2 (run rt pass p b) hkept
    have hfirst : ∀ s, (b.batch_id, s) ∉ rest := fun s hs => hnodup.1 (h₂.only _ hs)
    have hrest : ∀ c ∈ bs, ∀ s, (c.batch_id, s) ∉ first := by
      intro c hc s hs
      exact hlater c hc (by simpa using h₁.only _ hs)
    refine ⟨first ++ rest, ?_, ?_, ?_, ?_, ?_⟩
    · rw [List.foldl_cons, h₂.answers, h₁.answers, List.append_assoc]
    · intro c hc
      rw [List.foldl_cons, List.mem_append]
      rcases List.mem_cons.mp hc with rfl | hc
      · rw [Settled.congr (h₂.other _ hnodup.1), h₁.settled c (List.mem_singleton_self c)]
        simp [hfirst]
      · rw [h₂.settled c hc]
        simp [hrest c hc]
    · intro c hc
      rcases List.mem_cons.mp hc with rfl | hc
      · rw [← h₁.asked c (List.mem_singleton_self c)]
        simp [hfirst]
      · rw [← h₂.asked c hc]
        simp [hrest c hc]
    · intro e he
      rw [List.map_cons, List.mem_cons]
      rcases List.mem_append.mp he with he | he
      · exact .inl (by simpa using h₁.only e he)
      · exact .inr (h₂.only e he)
    · intro x hx
      rw [List.map_cons, List.mem_cons, not_or] at hx
      rw [List.foldl_cons, h₂.other x hx.2, h₁.other x (by simpa using hx.1)]

/-- The last files of a pass are no artifacts. -/
theorem finish_artifact {p : Progress} {x : String} (hx : Proper x) :
    finish cls pass.texts p (artifact x) = p.files (artifact x) := by
  unfold finish
  split
  · rfl
  · dsimp only
    rw [write, Function.update_of_ne hx.ne_own.2]
    split
    · exact Function.update_of_ne hx.ne_own.1 _ _
    · rfl

/-! ## A pass -/

/-- What a pass over a plan asks, and what is settled after it. -/
structure Passed (rt : Runtime) (plan : List Batch) (kinds : List Kind) (files : Files)
    (done : Profiled) : Prop where
  todo : ∀ b ∈ plan, b.batch_id ∈ done.todo ↔ b.kind ∈ kinds ∧ ¬ Settled rt files b
  settled : ∀ b ∈ plan, Settled rt done.files b ↔
      Settled rt files b ∨ (b.batch_id, Status.ok) ∈ done.answers
  asked : ∀ b ∈ plan, (∃ s, (b.batch_id, s) ∈ done.answers) ↔ b.batch_id ∈ done.todo ∧ Promptable b

/-- A pass over a labelled plan goes through its batches. -/
theorem passed {plan : List Batch} {done : Profiled} (hplan : Labelled plan)
    (h : profile_batches rt cls plan pass files = .ok done) :
    Passed rt plan pass.kinds files done := by
  obtain ⟨⟨files₁, todo⟩, htodo, h⟩ := Except.bind_ok.mp h
  cases h
  have hsublist : (plan.filter fun b => b.kind ∈ pass.kinds).Sublist plan := List.filter_sublist
  have hcandidates : Labelled (plan.filter fun b => b.kind ∈ pass.kinds) :=
    ⟨(hsublist.map _).nodup hplan.nodup, fun b hb => hplan.proper b (hsublist.subset hb)⟩
  obtain ⟨hsub, hneeded, hkept, hother⟩ := to_do_spec hcandidates htodo
  have hunsettled : ∀ b ∈ todo, ¬ Settled rt files₁ b := by
    intro b hb
    rw [hkept b (hsub.subset hb)]
    exact (hneeded b (hsub.subset hb)).mp hb
  obtain ⟨new, hcalled⟩ := called_all pass ((hsub.map _).nodup hcandidates.nodup)
    { files := files₁, sanitizer := ⟨[], pass.rules, {}⟩ } hunsettled
  have hanswers := hcalled.answers
  rw [List.nil_append] at hanswers
  -- ids are apart, so that an id to do is that of one batch of the plan
  have hid : ∀ b ∈ plan, b.batch_id ∈ todo.map Batch.batch_id ↔ b ∈ todo := by
    intro b hb
    refine ⟨fun hmem => ?_, fun hmem => List.mem_map_of_mem hmem⟩
    obtain ⟨c, hc, heq⟩ := List.mem_map.mp hmem
    rwa [← List.inj_on_of_nodup_map hplan.nodup (hsublist.subset (hsub.subset hc)) hb heq]
  have hmem : ∀ b ∈ plan, b ∈ todo ↔ b.kind ∈ pass.kinds ∧ ¬ Settled rt files b := by
    intro b hb
    constructor
    · intro hin
      have hcand := hsub.subset hin
      exact ⟨by simpa using (List.mem_filter.mp hcand).2, (hneeded b hcand).mp hin⟩
    · rintro ⟨hkind, hnot⟩
      exact (hneeded b (List.mem_filter.mpr ⟨hb, by simpa using hkind⟩)).mpr hnot
  constructor
  · intro b hb
    rw [hid b hb, hmem b hb]
  · intro b hb
    rw [Settled.congr (finish_artifact (hplan.proper b hb)), hanswers]
    by_cases hin : b ∈ todo
    · rw [hcalled.settled b hin]
      simp [((hmem b hb).mp hin).2]
    · have hnot : b.batch_id ∉ todo.map Batch.batch_id := fun h => hin ((hid b hb).mp h)
      rw [Settled.congr (hcalled.other _ hnot)]
      have hnew : (b.batch_id, Status.ok) ∉ new := fun h => hnot (hcalled.only _ h)
      by_cases hkind : b.kind ∈ pass.kinds
      · rw [hkept b (List.mem_filter.mpr ⟨hb, by simpa using hkind⟩)]
        simp [hnew]
      · have hno : b.batch_id ∉ (plan.filter fun b => b.kind ∈ pass.kinds).map Batch.batch_id := by
          intro hcontra
          obtain ⟨c, hc, heq⟩ := List.mem_map.mp hcontra
          rw [List.inj_on_of_nodup_map hplan.nodup (hsublist.subset hc) hb heq,
            List.mem_filter] at hc
          exact hkind (by simpa using hc.2)
        rw [Settled.congr (hother _ (hplan.proper b hb) hno)]
        simp [hnew]
  · intro b hb
    rw [hanswers, hid b hb]
    by_cases hin : b ∈ todo
    · rw [hcalled.asked b hin]
      simp [hin]
    · have hnot : b.batch_id ∉ todo.map Batch.batch_id := fun h => hin ((hid b hb).mp h)
      refine ⟨?_, fun h => absurd h.1 hin⟩
      rintro ⟨s, hs⟩
      exact absurd (hcalled.only _ hs) hnot

theorem Passed.unsettled {plan : List Batch} {kinds : List Kind} {done : Profiled} {s : Status}
    (h : Passed rt plan kinds files done) (hb : b ∈ plan) (hs : (b.batch_id, s) ∈ done.answers) :
    ¬ Settled rt files b :=
  ((h.todo b hb).mp ((h.asked b hb).mp ⟨s, hs⟩).1).2

/-! ## Passes over one plan -/

/-- Passes one after the other into one directory: what is there in the end, and all that was
answered. -/
def passes (rt : Runtime) (cls : Classes) (plan : List Batch) : List Pass → Files →
    Result (Files × List (String × Status))
  | [], files => .ok (files, [])
  | pass :: rest, files => do
    let done ← profile_batches rt cls plan pass files
    let (files, answers) ← passes rt cls plan rest done.files
    pure (files, done.answers ++ answers)

/-- Over any passes, a batch is settled by an ok answer and by nothing else, and only a batch that
was not settled before is answered. -/
theorem passes_settled {plan : List Batch} (hplan : Labelled plan) (hb : b ∈ plan)
    {earlier : List Pass} {log : List (String × Status)}
    (h : passes rt cls plan earlier files = .ok (files', log)) :
    (Settled rt files' b ↔ Settled rt files b ∨ (b.batch_id, Status.ok) ∈ log) ∧
      ∀ s, (b.batch_id, s) ∈ log → ¬ Settled rt files b ∧ Promptable b := by
  induction earlier generalizing files log with
  | nil =>
    cases h
    simp
  | cons pass rest ih =>
    obtain ⟨done, hdone, h⟩ := Except.bind_ok.mp h
    obtain ⟨⟨files₂, answers⟩, hrest, h⟩ := Except.bind_ok.mp h
    cases h
    have hpass := passed hplan hdone
    obtain ⟨hsettled, hasked⟩ := ih hrest
    constructor
    · rw [hsettled, hpass.settled b hb, List.mem_append, or_assoc]
    · intro s hs
      rcases List.mem_append.mp hs with hs | hs
      · exact ⟨hpass.unsettled hb hs, ((hpass.asked b hb).mp ⟨s, hs⟩).2⟩
      · obtain ⟨hnot, hprompt⟩ := hasked s hs
        exact ⟨fun hbefore => hnot ((hpass.settled b hb).mpr (.inl hbefore)), hprompt⟩

/-- **Resuming.** A later pass leaves alone what earlier passes have recorded, whether ok or
refused, exactly when each candidate that was ever refused was also answered ok. -/
theorem resume_iff {key : Memory → String} {memories : List Memory} {since : Option String} {n : ℕ}
    {threshold : ℤ} {plan : List Batch}
    (hplan : plan_batches key rt memories since n threshold = .ok plan) {earlier : List Pass}
    {log : List (String × Status)} (hearlier : passes rt cls plan earlier files = .ok (files', log))
    {done : Profiled} (hdone : profile_batches rt cls plan pass files' = .ok done) :
    (∀ b ∈ plan, (b.batch_id, Status.ok) ∈ log ∨ (b.batch_id, Status.refused) ∈ log →
        ∀ s, (b.batch_id, s) ∉ done.answers) ↔
      ∀ b ∈ plan, b.kind ∈ pass.kinds → (b.batch_id, Status.refused) ∈ log →
        (b.batch_id, Status.ok) ∈ log := by
  have hlabelled := labelled_of_plan hplan
  have hpass := passed hlabelled hdone
  constructor
  · intro hnone b hb hkind hrefused
    -- refused and never answered, it would have been asked again
    by_contra hok
    obtain ⟨hsettled, hasked⟩ := passes_settled hlabelled hb hearlier
    obtain ⟨hbefore, hprompt⟩ := hasked .refused hrefused
    have hnot : ¬ Settled rt files' b := by
      rw [hsettled, not_or]
      exact ⟨hbefore, hok⟩
    obtain ⟨s, hs⟩ := (hpass.asked b hb).mpr ⟨(hpass.todo b hb).mpr ⟨hkind, hnot⟩, hprompt⟩
    exact hnone b hb (.inr hrefused) s hs
  · intro hcond b hb hrecorded s hs
    have hkind := ((hpass.todo b hb).mp ((hpass.asked b hb).mp ⟨s, hs⟩).1).1
    have hok : (b.batch_id, Status.ok) ∈ log := hrecorded.elim id (hcond b hb hkind)
    -- what was answered once is settled, and is not asked again
    refine hpass.unsettled hb hs ?_
    exact (passes_settled hlabelled hb hearlier).1.mpr (.inr hok)

end pass

/-- Two memories of one session, the first of them updated or not. -/
def lone (updated_at : Option String) : List Memory :=
  [⟨"m1", some "2026-07-01", updated_at, [("session_id", .str "s")]⟩,
    ⟨"m2", some "2026-07-02", none, [("session_id", .str "s")]⟩]

/-- A pass over them in which the endpoint always answers the same. -/
def always (answer : Answer) (text : String) : Pass where
  texts := [("m1", ⟨some "2026-07-01", some text⟩), ("m2", ⟨some "2026-07-02", none⟩)]
  template := "\x7bmaterial\x7d"
  rules := [("HOST", HOST .ascii), ("USER", USER .ascii), ("JOB", JOB .ascii)]
  model _ _ := answer

/-- Some passes over two memories, then one more: the plan, what was answered before, and what is
asked then. -/
def then_pass (earlier : List Pass)
    (last : Pass) : Result (List Batch × List (String × Status) × Profiled) := do
  let plan ← plan_batches Memory.id .plain (lone none) none 275 60
  let (files, log) ← passes .plain .ascii plan earlier fun _ => none
  let done ← profile_batches .plain .ascii plan last files
  pure (plan, log, done)

/-- The batches of the plan, the answers before the last pass, what that one has to do, and what is
answered. -/
structure Outline where
  batches : List (String × Kind × List String)
  log : List (String × Status)
  todo : List String
  answers : List (String × Status)
  deriving DecidableEq

def outline (e : List Batch × List (String × Status) × Profiled) : Outline :=
  ⟨e.1.map fun b => (b.batch_id, b.kind, b.memory_ids), e.2.1, e.2.2.todo, e.2.2.answers⟩

/-- The run of an example, with the plan that it is over. -/
theorem then_pass_spec {earlier : List Pass} {last : Pass}
    {batches : List (String × Kind × List String)} {log answers : List (String × Status)}
    {todo : List String}
    (h : (then_pass earlier last).map outline = .ok ⟨batches, log, todo, answers⟩) :
    ∃ plan files done, plan_batches Memory.id .plain (lone none) none 275 60 = .ok plan ∧
      passes .plain .ascii plan earlier (fun _ => none) = .ok (files, log) ∧
      profile_batches .plain .ascii plan last files = .ok done ∧
      plan.map (fun b => (b.batch_id, b.kind, b.memory_ids)) = batches ∧ done.todo = todo ∧
      done.answers = answers := by
  cases hrun : then_pass earlier last with
  | error e =>
    rw [hrun] at h
    cases h
  | ok e =>
    rw [hrun] at h
    cases h
    obtain ⟨plan, hplan, hrun⟩ := Except.bind_ok.mp hrun
    obtain ⟨⟨files, answers⟩, hearlier, hrun⟩ := Except.bind_ok.mp hrun
    obtain ⟨profiled, hdone, hrun⟩ := Except.bind_ok.mp hrun
    cases hrun
    exact ⟨plan, files, profiled, hplan, hearlier, hdone, rfl, rfl, rfl⟩

/-- Refused once and then answered, the batch is left alone. -/
theorem resume_refused_then_ok : ∃ plan files done,
    plan_batches Memory.id .plain (lone none) none 275 60 = .ok plan ∧
    passes .plain .ascii plan [always (.refused "moderation") "on 10.0.0.1",
      always (.ok .null .null) "on 10.0.0.1"]
      (fun _ => none) = .ok (files, [("b000", .refused), ("b000", .ok)]) ∧
    profile_batches .plain .ascii plan (always (.ok .null .null) "on 10.0.0.1") files = .ok done ∧
    ∀ b ∈ plan, (b.batch_id, Status.ok) ∈ [("b000", Status.refused), ("b000", Status.ok)] ∨
        (b.batch_id, Status.refused) ∈ [("b000", Status.refused), ("b000", Status.ok)] →
      ∀ s, (b.batch_id, s) ∉ done.answers := by
  have hrun :
      (then_pass [always (.refused "moderation") "on 10.0.0.1",
      always (.ok .null .null) "on 10.0.0.1"]
      (always (.ok .null .null) "on 10.0.0.1")).map outline
        = .ok ⟨[("b000", .session, ["m1", "m2"])], [("b000", .refused), ("b000", .ok)], [],
          []⟩ := by decide +kernel
  obtain ⟨plan, files, done, hplan, hearlier, hlast, -⟩ := then_pass_spec hrun
  refine ⟨plan, files, done, hplan, hearlier, hlast, (resume_iff hplan hearlier hlast).mpr ?_⟩
  intro b _ _ hrefused
  simpa using hrefused

/-- Refused in the first pass, the batch is asked again in the second. -/
theorem refused_asked_again : ∃ plan files done,
    plan_batches Memory.id .plain (lone none) none 275 60 = .ok plan ∧
    passes .plain .ascii plan [always (.refused "moderation") "on 10.0.0.1"] (fun _ => none)
      = .ok (files, [("b000", .refused)]) ∧
    profile_batches .plain .ascii plan (always (.refused "moderation") "on 10.0.0.1") files =
      .ok done ∧
    done.answers = [("b000", .refused)] := by
  have hrun :
      (then_pass [always (.refused "moderation") "on 10.0.0.1"]
        (always (.refused "moderation") "on 10.0.0.1")).map
      outline = .ok ⟨[("b000", .session, ["m1", "m2"])], [("b000", .refused)], ["b000"],
        [("b000", .refused)]⟩ := by
    decide +kernel
  obtain ⟨plan, files, done, hplan, hearlier, hlast, -, -, hanswers⟩ := then_pass_spec hrun
  exact ⟨plan, files, done, hplan, hearlier, hlast, hanswers⟩

/-! ## Two stores with the same batches -/

/-- The text of a memory as a prompt has it. -/
def Texts.of (texts : Texts) (memory_id : String) : String :=
  ((texts.lookup memory_id).getD ⟨none, none⟩).text

/-- Some member of the batch has another text in the second pass. -/
def Differs (first second : Pass) (b : Batch) : Prop :=
  ∃ m ∈ b.memory_ids, first.texts.of m ≠ second.texts.of m

/-- The first pass has left an artifact of the batch. -/
def Kept (done : Profiled) (b : Batch) : Prop :=
  (b.batch_id, Status.ok) ∈ done.answers ∨ (b.batch_id, Status.refused) ∈ done.answers

/-- The members of a batch are known by their ids alone. -/
theorem Settled.of_ids {rt : Runtime} {files : Files} {b b' : Batch}
    (hid : b.batch_id = b'.batch_id) (hmembers : b.memory_ids = b'.memory_ids) :
    Settled rt files b ↔ Settled rt files b' := by
  rw [Settled, Settled, coverage_digest, coverage_digest, hid, hmembers]

/-- **Reuse.** The artifact of a batch some text of which has changed is not reused exactly when no
such batch was answered ok by the first pass. -/
theorem reuse_iff {rt : Runtime} {cls : Classes} {key₁ key₂ : Memory → String}
    {memories₁ memories₂ : List Memory} {since₁ since₂ : Option String} {n₁ n₂ : ℕ}
    {threshold₁ threshold₂ : ℤ} {plan₁ plan₂ : List Batch}
    (hplan₁ : plan_batches key₁ rt memories₁ since₁ n₁ threshold₁ = .ok plan₁)
    (hplan₂ : plan_batches key₂ rt memories₂ since₂ n₂ threshold₂ = .ok plan₂)
    (hsame : plan₁.map (fun b => (b.batch_id, b.memory_ids)) = plan₂.map fun b =>
      (b.batch_id, b.memory_ids))
    {first second : Pass} {files : Files} {done₁ done₂ : Profiled}
    (hfirst : profile_batches rt cls plan₁ first files = .ok done₁)
    (hsecond : profile_batches rt cls plan₂ second done₁.files = .ok done₂) :
    (∀ b ∈ plan₂, b.kind ∈ second.kinds → Kept done₁ b → Differs first second b →
      b.batch_id ∈ done₂.todo) ↔
      ∀ b ∈ plan₂, b.kind ∈ second.kinds → Differs first second b →
        (b.batch_id, Status.ok) ∉ done₁.answers := by
  have hpass₁ := passed (labelled_of_plan hplan₁) hfirst
  have hpass₂ := passed (labelled_of_plan hplan₂) hsecond
  -- an answer of the first pass is that of the same slot of the first plan
  have hreused : ∀ b ∈ plan₂, Kept done₁ b →
      (Settled rt done₁.files b ↔ (b.batch_id, Status.ok) ∈ done₁.answers) := by
    intro b hb hkept
    have hslot : (b.batch_id, b.memory_ids) ∈ plan₁.map fun b => (b.batch_id, b.memory_ids) := by
      rw [hsame]
      exact List.mem_map_of_mem hb
    obtain ⟨b₁, hb₁, heq⟩ := List.mem_map.mp hslot
    obtain ⟨hid, hmembers⟩ := Prod.mk.injEq .. ▸ heq
    have hunsettled : ¬ Settled rt files b₁ := by
      rw [Kept, ← hid] at hkept
      exact hkept.elim (hpass₁.unsettled hb₁) (hpass₁.unsettled hb₁)
    rw [← Settled.of_ids hid hmembers, hpass₁.settled b₁ hb₁, hid]
    simp [hunsettled]
  constructor
  · intro hfresh b hb hkind hdiffers hok
    have hagain := hfresh b hb hkind (.inl hok) hdiffers
    exact ((hpass₂.todo b hb).mp hagain).2 ((hreused b hb (.inl hok)).mpr hok)
  · intro hcond b hb hkind hkept hdiffers
    refine (hpass₂.todo b hb).mpr ⟨hkind, ?_⟩
    rw [hreused b hb hkept]
    exact hcond b hb hkind hdiffers

/-- A single pass, and what it answered. -/
theorem passes_one {rt : Runtime} {cls : Classes} {plan : List Batch} {pass : Pass}
    {files files' : Files} {log : List (String × Status)}
    (h : passes rt cls plan [pass] files = .ok (files', log)) :
    ∃ done, profile_batches rt cls plan pass files = .ok done ∧ done.files = files' ∧
      done.answers = log := by
  obtain ⟨done, hdone, h⟩ := Except.bind_ok.mp h
  cases h
  exact ⟨done, hdone, rfl, (List.append_nil _).symm⟩

/-- An update in place leaves the plan as it was. -/
theorem lone_updated : plan_batches Memory.id .plain (lone (some "2026-07-09")) none 275 60
    = plan_batches Memory.id .plain (lone none) none 275 60 := by
  decide +kernel

/-- A batch the endpoint has refused is read again, with the text it has now. -/
theorem refused_read_again : ∃ plan done₁ done₂,
    plan_batches Memory.id .plain (lone none) none 275 60 = .ok plan ∧
    plan_batches Memory.id .plain (lone (some "2026-07-09")) none 275 60 = .ok plan ∧
    profile_batches .plain .ascii plan (always (.refused "moderation") "on 10.0.0.1") (fun _ =>
      none) = .ok done₁ ∧
    profile_batches .plain .ascii plan (always (.ok .null .null) "on 10.0.0.2") done₁.files =
      .ok done₂ ∧
    ∀ b ∈ plan, b.kind ∈ KINDS → Kept done₁ b →
      Differs (always (.refused "moderation") "on 10.0.0.1")
        (always (.ok .null .null) "on 10.0.0.2") b →
        b.batch_id ∈ done₂.todo := by
  have hrun :
      (then_pass [always (.refused "moderation") "on 10.0.0.1"]
        (always (.ok .null .null) "on 10.0.0.2")).map
      outline = .ok ⟨[("b000", .session, ["m1", "m2"])], [("b000", .refused)], ["b000"],
        [("b000", .ok)]⟩ := by
    decide +kernel
  obtain ⟨plan, files, done₂, hplan, hearlier, hlast, -⟩ := then_pass_spec hrun
  obtain ⟨done₁, hone, rfl, hlog⟩ := passes_one hearlier
  have hupdated := lone_updated.trans hplan
  refine ⟨plan, done₁, done₂, hplan, hupdated, hone, hlast,
    (reuse_iff hplan hupdated rfl hone hlast).mpr ?_⟩
  intro b _ _ _ hok
  rw [hlog] at hok
  simp at hok

/-- Answered once, the batch keeps its artifact when the text of a member is updated in place. -/
theorem updated_not_read_again : ∃ plan done₁ done₂,
    plan_batches Memory.id .plain (lone none) none 275 60 = .ok plan ∧
    plan_batches Memory.id .plain (lone (some "2026-07-09")) none 275 60 = .ok plan ∧
    profile_batches .plain .ascii plan (always (.ok .null .null) "on 10.0.0.1") (fun _ => none) =
      .ok done₁ ∧
    profile_batches .plain .ascii plan (always (.ok .null .null) "on 10.0.0.2") done₁.files =
      .ok done₂ ∧
    (∃ b ∈ plan, b.kind ∈ KINDS ∧ Kept done₁ b ∧
      Differs (always (.ok .null .null) "on 10.0.0.1") (always (.ok .null .null) "on 10.0.0.2") b) ∧
    done₂.todo = [] := by
  have hrun :
      (then_pass [always (.ok .null .null) "on 10.0.0.1"]
        (always (.ok .null .null) "on 10.0.0.2")).map
      outline = .ok ⟨[("b000", .session, ["m1", "m2"])], [("b000", .ok)], [], []⟩ := by
    decide +kernel
  obtain ⟨plan, files, done₂, hplan, hearlier, hlast, hbatches, htodo, -⟩ := then_pass_spec hrun
  obtain ⟨done₁, hone, rfl, hlog⟩ := passes_one hearlier
  refine ⟨plan, done₁, done₂, hplan, lone_updated.trans hplan, hone, hlast, ?_, htodo⟩
  have hslot : ("b000", Kind.session, ["m1", "m2"]) ∈ plan.map fun b =>
      (b.batch_id, b.kind, b.memory_ids) := by
    rw [hbatches]
    exact List.mem_singleton_self _
  obtain ⟨b, hb, heq⟩ := List.mem_map.mp hslot
  obtain ⟨hid, hkind, hmembers⟩ : b.batch_id = "b000" ∧ b.kind = .session ∧
      b.memory_ids = ["m1", "m2"] := by
    simpa using heq
  refine ⟨b, hb, ?_, ?_, "m1", ?_, ?_⟩
  · rw [hkind]
    decide
  · rw [Kept, hid, hlog]
    exact .inl (List.mem_singleton_self _)
  · rw [hmembers]
    exact List.mem_cons_self
  · decide

end Memline.wiki.profile

/-
The canonical text of an artifact.

A review is bound to a bundle by the hash of the bundle's canonical text, and every file between
them has been saved with indentation and loaded again, some of them several times. What is bound is
the value: two values have one canonical text exactly when they are equal as JSON, and a value that
is saved and loaded is the value it was.
-/
import Memline.Wiki.Artifacts
import Memline.Lib.JsonOrder

set_option autoImplicit false

namespace Memline.wiki

open Py Py.JsonText

variable (L : Language) (rt : Runtime)

/-! ## Files -/

/-- `json.dumps(value, ensure_ascii=False, indent=width)`. -/
def save (width : ℕ) (value : Json) : String :=
  String.ofList (write (.indent width) rt.toPrinter 0 value)

/-- `json.loads(text)`. -/
def load (text : String) : Except Fault Json := json_loads L true text.toList

/-- The value is saved and loaded again and again, with these indentations. -/
def reload : List ℕ → Json → Except Fault Json
  | [], value => .ok value
  | width :: widths, value => load L (save rt width value) >>= reload widths

/-! ## The review bundle -/

/-- What a review bundle is put together from. -/
structure ReviewParts where
  draft_name : Json
  draft_markdown : String
  bundle : Json
  approved_topic : Json
  deterministic : Json
  packets : Json
  uncited : Json
  uncited_evidence : Json
  claims : Json

/-- The end of `build_review_bundle`: the bundle declares its own hash. -/
def review_bundle (s : ReviewParts) : Dict :=
  let review_bundle : Dict := [
    ("schema_version", .int 1),
    ("draft_name", s.draft_name),
    ("article_sha256", .str (sha256_text rt s.draft_markdown)),
    ("evidence_bundle_sha256", .str (artifact_sha256 rt s.bundle)),
    ("approved_topic", s.approved_topic),
    ("article_markdown", .str s.draft_markdown),
    ("deterministic_report", s.deterministic),
    ("claim_packets", s.packets),
    ("uncited_passages", s.uncited),
    ("uncited_evidence", s.uncited_evidence),
    ("claims_manifest", s.claims)]
  Dict.set review_bundle "review_bundle_sha256"
    (.str (content_hash rt review_bundle "review_bundle_sha256"))

variable {L rt}

theorem without_set (d : Dict) (key : String) (v : Json) :
    Dict.without (Dict.set d key v) key = Dict.without d key := by
  induction d with
  | nil => simp [Dict.set, Dict.without]
  | cons e d ih =>
    obtain ⟨k, u⟩ := e
    rw [Dict.set]
    split
    · rename_i hk
      simp [Dict.without, hk]
    · rename_i hk
      simpa [Dict.without, hk] using ih

/-- The hash a bundle declares is that of the rest of it. -/
theorem review_bundle_declares (s : ReviewParts) :
    Dict.get (review_bundle rt s) "review_bundle_sha256" =
      .str (content_hash rt (review_bundle rt s) "review_bundle_sha256") := by
  rw [review_bundle, Dict.get_set_self, content_hash, content_hash, without_set]

/-! ## Reading back -/

theorem load_save {value : Json} (h : Dumpable L rt.toPrinter value) (width : ℕ) :
    load L (save rt width value) = .ok value := by
  rw [load, save, String.toList_ofList]
  exact loads_spelled (D := ⟨L, true⟩) (spells_write value h.ints h.floats 0) h.keys h.depth_le

/-- Saving and loading any number of times gives the value. -/
theorem reload_eq {value : Json} (h : Dumpable L rt.toPrinter value) (widths : List ℕ) :
    reload L rt widths value = .ok value := by
  induction widths with
  | nil => rfl
  | cons width widths ih =>
    rw [reload, load_save h]
    exact ih

/-- The canonical text is read as the value with its fields by key. -/
theorem load_canonical {value : Json} (h : Dumpable L rt.toPrinter value) :
    load L (canonical_json rt value) = .ok (ordered value) := by
  have hordered := h.ordered
  rw [load, canonical_json, toList_dumps value 0]
  exact loads_spelled (D := ⟨L, true⟩) (spells_write _ hordered.ints hordered.floats 0)
    hordered.keys hordered.depth_le

/-- Canonical texts are equal when the values are. -/
theorem canonical_eq_iff {x y : Json} (hx : Dumpable L rt.toPrinter x)
    (hy : Dumpable L rt.toPrinter y) : canonical_json rt x = canonical_json rt y ↔ Equal x y := by
  rw [← ordered_eq_iff x hx.keys hy.keys]
  constructor
  · intro h
    have hread := load_canonical hx
    rw [h, load_canonical hy] at hread
    exact (Except.ok.inj hread).symm
  · intro h
    refine String.ext ?_
    rw [canonical_json, canonical_json, toList_dumps x 0, toList_dumps y 0, h]

variable (L rt) in
/-- **Canonical texts bind.** Two values have one canonical text exactly when they are equal; saving
and loading, however often, changes neither a value nor its canonical text; and the hash that a
reloaded bundle has is the one that was declared when it was built. -/
theorem canonical_binds :
    (∀ x y, Dumpable L rt.toPrinter x → Dumpable L rt.toPrinter y →
      (canonical_json rt x = canonical_json rt y ↔ Equal x y)) ∧
    (∀ x, Dumpable L rt.toPrinter x → ∀ widths, ∃ y, reload L rt widths x = .ok y ∧ Equal y x ∧
      canonical_json rt y = canonical_json rt x) ∧
    ∀ (s : ReviewParts) (widths : List ℕ), Dumpable L rt.toPrinter (.obj (review_bundle rt s)) →
      ∃ d, reload L rt widths (.obj (review_bundle rt s)) = .ok (.obj d) ∧
        .str (content_hash rt d "review_bundle_sha256") =
          Dict.get (review_bundle rt s) "review_bundle_sha256" := by
  refine ⟨fun x y hx hy => canonical_eq_iff hx hy, fun x hx widths => ?_, fun s widths hs => ?_⟩
  · exact ⟨x, reload_eq hx widths, (canonical_eq_iff hx hx).mp rfl, rfl⟩
  · exact ⟨review_bundle rt s, reload_eq hs widths, (review_bundle_declares s).symm⟩

/-- A bundle without evidence. -/
def empty_parts : ReviewParts where
  draft_name := .str "draft.md"
  draft_markdown := "# Title\n"
  bundle := .obj [("topic", .str "t"), ("memories", .list [])]
  approved_topic := .null
  deterministic := .obj [("clean", .bool true)]
  packets := .list []
  uncited := .list []
  uncited_evidence := .list []
  claims := .null

/-- The review bundle of an empty draft can be written. -/
theorem empty_parts_dumpable :
    Dumpable .plain Runtime.plain.toPrinter (.obj (review_bundle .plain empty_parts)) where
  depth_le := by decide +kernel
  ints := by decide +kernel
  floats := ⟨trivial, trivial, trivial, trivial, trivial, trivial, ⟨trivial, trivial⟩, trivial,
    trivial, trivial, trivial, trivial, trivial⟩
  keys := ⟨by decide +kernel, trivial, trivial, trivial, trivial, trivial, trivial,
    ⟨by decide, trivial, trivial⟩, trivial, trivial, trivial, trivial, trivial, trivial⟩

/-- Two objects with their keys in different orders: one text, and equal values. -/
theorem empty_parts_bound :
    (canonical_json .plain (.obj [("b", .int 1), ("a", .list [])]) =
        canonical_json .plain (.obj [("a", .list []), ("b", .int 1)]) ↔
      Equal (.obj [("b", .int 1), ("a", .list [])]) (.obj [("a", .list []), ("b", .int 1)])) ∧
    (∃ y, reload .plain .plain [1, 2, 1] (.obj [("b", .int 1), ("a", .list [])]) = .ok y ∧
      Equal y (.obj [("b", .int 1), ("a", .list [])]) ∧
      canonical_json .plain y = canonical_json .plain (.obj [("b", .int 1), ("a", .list [])])) ∧
    ∃ d, reload .plain .plain [1, 1] (.obj (review_bundle .plain empty_parts)) = .ok (.obj d) ∧
      .str (content_hash .plain d "review_bundle_sha256") =
        Dict.get (review_bundle .plain empty_parts) "review_bundle_sha256" := by
  obtain ⟨hsame, hkept, hbound⟩ := canonical_binds .plain .plain
  have hfirst : Dumpable .plain Runtime.plain.toPrinter (.obj [("b", .int 1), ("a", .list [])]) :=
    ⟨by decide, by decide, ⟨trivial, trivial, trivial⟩, ⟨by decide, trivial, trivial, trivial⟩⟩
  have hsecond : Dumpable .plain Runtime.plain.toPrinter (.obj [("a", .list []), ("b", .int 1)]) :=
    ⟨by decide, by decide, ⟨trivial, trivial, trivial⟩, ⟨by decide, trivial, trivial, trivial⟩⟩
  exact ⟨hsame _ _ hfirst hsecond, hkept _ hfirst [1, 2, 1],
    hbound empty_parts [1, 1] empty_parts_dumpable⟩

end Memline.wiki

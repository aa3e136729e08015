/-
Which endpoint does which job.

Every job that calls a language model has a table of its own below `[llm]`, and takes from `[llm]`
itself what its table does not say. What it takes never comes out of another table: not out of the
table of another job, not out of the shared list of fallbacks, and no credential once it names one.
-/
import Memline.Lib.Check
import Memline.Lib.Json

set_option autoImplicit false

namespace Memline.config

open Py

/-- What resolving an endpoint may raise. -/
inductive Failure where
  | config_error (msg : String)
  | value_error (msg : String)
  | raised (e : Error)
  deriving DecidableEq

def LLM_JOBS : List String := ["infer", "rerank", "judge", "profile", "draft", "review"]

def ENDPOINT_FIELDS : List String :=
  ["model", "base_url", "api_key_env", "api_key_json", "api_key_json_path", "site_url",
    "app_name", "stream", "extra_body"]

def KNOB_FIELDS : List String := ["max_tokens", "attempts_per_endpoint", "timeout", "backoff"]

/-- An operation on values that may raise. -/
def lift {α : Type} : Result α → Except Failure α
  | .ok a => .ok a
  | .error e => .error (.raised e)

section

variable (p : Printer) (config_path : Option String)

/-- The fields an endpoint states, or may inherit, in their order. -/
def endpoint_fields (raw : Json) (inherit : Dict) : List String → Except Failure Dict
  | [] => .ok []
  | key :: keys => do
    if ← lift (raw.contains_str key) then
      let v ← lift (raw.item key)
      let rest ← endpoint_fields raw inherit keys
      pure ((key, v) :: rest)
    else
      let rest ← endpoint_fields raw inherit keys
      -- what the table itself says comes before what it inherits
      match inherit.lookup key with
      | some v => pure ((key, v) :: rest)
      | none => pure rest

def endpoint_spec (raw : Json) (name : String) (inherit : Dict) : Except Failure Dict := do
  let fields ← endpoint_fields raw inherit ENDPOINT_FIELDS
  if name ≠ "primary" then
    let env ← lift (raw.contains_str "api_key_env")
    let json ← lift (raw.contains_str "api_key_json")
    if ¬ env ∧ ¬ json then
      throw (.value_error s!"[llm.{name}] must declare api_key_env or api_key_json")
  pure (("name", .str name) :: fields)

/-- What an endpoint lacks to be one. -/
def missing_identity (spec : Dict) : List String :=
  (["model", "base_url"].filter fun key => !(spec.get key).truthy) ++
    if (spec.get "api_key_env").truthy || (spec.get "api_key_json").truthy then []
    else ["api_key_env or api_key_json"]

def require_identity (spec : Dict) (place : String) : Except Failure Dict :=
  let missing := missing_identity spec
  let fix :=
    if spec.get "name" ≠ .str "primary" then "state it on this table"
    else "state it on this table or on [llm] for it to inherit"
  let listed := ", ".intercalate missing
  let path := config_path.getD "config.toml"
  if missing = [] then .ok spec
  else .error (.config_error (s!"[{place}] is missing {listed}. " ++
    s!"Endpoint identity has no default in code — {fix}, in {path}."))

/-- A table of another job. -/
def is_sibling (llm : Dict) (key : String) : Bool :=
  match llm.lookup key with
  | some (.obj _) => decide (key ≠ "fallback" ∧ key ≠ "extra_body")
  | _ => false

/-- What never crosses from `[llm]` to a job. -/
def blocked (llm chosen : Dict) (key : String) : Bool :=
  is_sibling llm key || decide (key = "fallback") ||
    (chosen.contains "api_key_env" || chosen.contains "api_key_json") &&
      decide (key ∈ ["api_key_env", "api_key_json", "api_key_json_path"])

/-- `{**inherited, **chosen}`; no key is in both. -/
def merged (llm chosen : Dict) : Dict :=
  (llm.filter fun e => !chosen.contains e.1 && !blocked llm chosen e.1) ++ chosen

/-- `[llm]` merged with `[llm.<job>]`, with the job's own keys winning. -/
def resolve_job_table (llm : Dict) (job : Option String) : Except Failure Dict :=
  match job with
  | none => .ok llm
  | some job =>
    let known := ", ".intercalate LLM_JOBS
    if job ∉ LLM_JOBS then
      .error (.config_error s!"unknown llm job {p.quote job}; known jobs: {known}")
    else
      match llm.lookup job with
      | some (.obj chosen) => .ok (merged llm chosen)
      -- a job without a table of its own uses that of all
      | _ => .ok llm

/-- Budgets and patience this job states, if any. -/
def llm_knobs (llm : Dict) (job : Option String) : Except Failure Dict := do
  let table ← resolve_job_table p llm job
  pure (KNOB_FIELDS.filterMap fun key => (table.lookup key).map fun v => (key, v))

/-- The list of fallbacks: one table, several, or none. -/
def raw_fallbacks (table : Dict) : Except Failure (List Json) :=
  let raw := (table.get "fallback").or_else (.list [])
  match raw with
  | .obj _ => .ok [raw]
  | _ => lift raw.iter

/-- The table of a job in the texts of errors. -/
def place_of (job : Option String) : String :=
  match job with
  | none => "llm"
  | some job => if job = "" then "llm" else s!"llm.{job}"

/-- What the fallbacks take from the first endpoint. -/
def attribution (primary : Dict) : Dict :=
  ["site_url", "app_name"].filterMap fun key => (primary.lookup key).map fun v => (key, v)

def fallback_specs (job : Option String) (inherit : Dict) (count : ℕ) : ℕ → List Json →
    Except Failure (List Dict)
  | _, [] => .ok []
  | index, raw :: raws => do
    let name := if count = 1 then "fallback" else s!"fallback{index + 1}"
    let spec ← endpoint_spec raw name inherit
    let spec ← require_identity config_path spec s!"{place_of job}.{name}"
    let rest ← fallback_specs job inherit count (index + 1) raws
    pure (spec :: rest)

/-- Endpoints in preference order: the job's own table first, then its fallbacks. -/
def llm_endpoint_specs (llm : Dict) (job : Option String) : Except Failure (List Dict) := do
  let table ← resolve_job_table p llm job
  let spec ← endpoint_spec (.obj table) "primary" []
  let primary ← require_identity config_path spec (place_of job)
  let raws ← raw_fallbacks table
  let rest ← fallback_specs config_path job (attribution primary) raws.length 0 raws
  pure (primary :: rest)

end

variable {p : Printer} {config_path : Option String}

/-! ## What is looked up -/

/-- Looking a key up among fields picked by their keys. -/
theorem lookup_filter (f : String → Bool) (d : Dict) (key : String) :
    List.lookup key (d.filter fun e => f e.1) = if f key then d.lookup key else none := by
  induction d with
  | nil => simp
  | cons e d ih =>
    obtain ⟨k, v⟩ := e
    by_cases hk : key = k
    · subst hk
      by_cases hf : f key = true
      · simp [hf]
      · simp only [List.filter_cons, hf, if_false, Bool.false_eq_true] at ih ⊢
        exact ih
    · have hne : (key == k) = false := by simpa using hk
      by_cases hf : f k = true
      · simp only [List.filter_cons, hf, if_true, List.lookup_cons, hne, ih]
      · simp only [List.filter_cons, hf, if_false, Bool.false_eq_true, List.lookup_cons, hne, ih]

/-- Looking a key up in two dictionaries, the first one in front. -/
theorem lookup_append (d e : Dict) (key : String) :
    List.lookup key (d ++ e) = (d.lookup key).or (e.lookup key) := by
  induction d with
  | nil => rfl
  | cons f d ih =>
    obtain ⟨k, v⟩ := f
    by_cases hk : key = k
    · subst hk
      simp
    · have hne : (key == k) = false := by simpa using hk
      simp only [List.cons_append, List.lookup_cons, hne, ih]

/-- Some keys with what there is for each. -/
def collect (keys : List String) (f : String → Option Json) : Dict :=
  keys.filterMap fun key => (f key).map fun v => (key, v)

theorem collect_cons_some {f : String → Option Json} {key : String} {v : Json} (keys : List String)
    (h : f key = some v) : collect (key :: keys) f = (key, v) :: collect keys f := by
  rw [collect, List.filterMap_cons, h]
  rfl

theorem collect_cons_none {f : String → Option Json} {key : String} (keys : List String)
    (h : f key = none) : collect (key :: keys) f = collect keys f := by
  rw [collect, List.filterMap_cons, h]
  rfl

theorem collect_congr {keys : List String} {f g : String → Option Json}
    (h : ∀ key ∈ keys, f key = g key) : collect keys f = collect keys g := by
  refine List.filterMap_congr fun key hkey => ?_
  rw [h key hkey]

/-- A collected key has the value that was given for it, and no other key is there. -/
theorem lookup_collect (keys : List String) (f : String → Option Json) (key : String) :
    List.lookup key (collect keys f) = if key ∈ keys then f key else none := by
  induction keys with
  | nil => simp [collect]
  | cons k keys ih =>
    by_cases hk : key = k
    · subst hk
      cases hf : f key with
      | none =>
        rw [collect_cons_none keys hf, ih, hf]
        simp
      | some v =>
        rw [collect_cons_some keys hf]
        simp
    · have hne : (key == k) = false := by simpa using hk
      have hmem : key ∈ k :: keys ↔ key ∈ keys := by simp [hk]
      simp only [hmem, ← ih]
      cases hf : f k with
      | none => rw [collect_cons_none keys hf]
      | some v =>
        rw [collect_cons_some keys hf]
        simp only [List.lookup_cons, hne]

/-- A key of the merged table: the job's own, or the shared one where it is not blocked. -/
theorem lookup_merged (llm chosen : Dict) (key : String) : List.lookup key (merged llm chosen)
    = if chosen.contains key then chosen.lookup key else if blocked llm chosen key then none
      else llm.lookup key := by
  have hfilter := lookup_filter (fun k => !chosen.contains k && !blocked llm chosen k) llm key
  rw [merged, lookup_append, hfilter]
  cases hc : chosen.contains key with
  | true => simp
  | false =>
    have hnone : chosen.lookup key = none := by
      rw [Dict.contains, Option.isSome_eq_false_iff, Option.isNone_iff_eq_none] at hc
      exact hc
    cases hb : blocked llm chosen key <;> simp [hnone]

/-- The fields of an endpoint are its own, and the inherited ones where it has none. -/
theorem endpoint_fields_eq (t inherit : Dict) (keys : List String) :
    endpoint_fields (.obj t) inherit keys
    = .ok (collect keys fun key => (t.lookup key).or (inherit.lookup key)) := by
  induction keys with
  | nil => rfl
  | cons key keys ih =>
    rw [endpoint_fields, ih]
    simp only [Json.contains_str, Json.item, lift, Dict.contains]
    cases ht : t.lookup key with
    | some v =>
      rw [collect_cons_some keys (by rw [ht]; rfl)]
      rfl
    | none =>
      cases hi : inherit.lookup key with
      | some v =>
        rw [collect_cons_some keys (by rw [ht, hi]; rfl)]
        rfl
      | none =>
        rw [collect_cons_none keys (by rw [ht, hi]; rfl)]
        rfl

/-! ## What crosses to a job -/

/-- What `[llm]` says of a key itself: no table below it, `extra_body` apart. -/
def setting (llm : Dict) (key : String) : Option Json :=
  match llm.lookup key with
  | some (.obj t) => if key = "extra_body" then some (.obj t) else none
  | v => v

def CREDENTIAL_FIELDS : List String := ["api_key_env", "api_key_json", "api_key_json_path"]

/-- Whether a table names a credential. -/
def names_credential (t : Dict) : Bool := t.contains "api_key_env" || t.contains "api_key_json"

/-- A job takes from `[llm]` its settings only, and no credential when it names one. -/
theorem lookup_inherited (llm chosen : Dict) {key : String} (hkey : key ≠ "fallback") :
    List.lookup key (merged llm chosen) = if chosen.contains key then chosen.lookup key
      else if names_credential chosen && decide (key ∈ CREDENTIAL_FIELDS) then none
        else setting llm key := by
  rw [lookup_merged, blocked, is_sibling, setting, names_credential, CREDENTIAL_FIELDS]
  by_cases hcred : ((chosen.contains "api_key_env" || chosen.contains "api_key_json") &&
    decide (key ∈ ["api_key_env", "api_key_json", "api_key_json_path"])) = true
  · simp only [hcred, Bool.or_true, if_true]
  · simp only [hcred, hkey, decide_false, Bool.or_false]
    -- a table blocks itself, and every other value passes
    cases llm.lookup key with
    | none => simp
    | some v =>
      cases v with
      | obj t =>
        by_cases hextra : key = "extra_body" <;> simp [hkey, hextra]
      | _ => simp

/-- Fallbacks are those of the chosen table: a job never takes the ones of `[llm]`. -/
theorem lookup_fallback (llm chosen : Dict) :
    List.lookup "fallback" (merged llm chosen) = chosen.lookup "fallback" := by
  rw [lookup_merged, blocked]
  cases hc : chosen.contains "fallback" with
  | true => rfl
  | false =>
    rw [Dict.contains, Option.isSome_eq_false_iff, Option.isNone_iff_eq_none] at hc
    simp [hc]

/-- No field of an endpoint and no knob is called `fallback`. -/
theorem fields_ne_fallback {key : String} (h : key ∈ ENDPOINT_FIELDS ++ KNOB_FIELDS) :
    key ≠ "fallback" := by
  rintro rfl
  revert h
  decide

/-- A job with a table of its own is resolved to that table over `[llm]`. -/
theorem resolve_own_table {llm chosen : Dict} {job : String} (hjob : job ∈ LLM_JOBS)
    (htable : llm.lookup job = some (.obj chosen)) :
    resolve_job_table p llm (some job) = .ok (merged llm chosen) := by
  simp only [resolve_job_table, hjob, not_true_eq_false, if_false, htable]

/-- Two configurations with the same settings give a job with the same table the same values. -/
theorem lookup_merged_congr {llm llm' : Dict} (chosen : Dict)
    (hsame : ∀ key ∈ ENDPOINT_FIELDS ++ KNOB_FIELDS, setting llm key = setting llm' key)
    {key : String} (hkey : key ∈ ENDPOINT_FIELDS ++ KNOB_FIELDS) :
    List.lookup key (merged llm chosen) = List.lookup key (merged llm' chosen) := by
  rw [lookup_inherited llm chosen (fields_ne_fallback hkey),
    lookup_inherited llm' chosen (fields_ne_fallback hkey), hsame key hkey]

/-- The knobs of a job see of `[llm]` only the settings of endpoint fields and knobs. -/
theorem knobs_congr {llm llm' chosen : Dict} {job : String} (hjob : job ∈ LLM_JOBS)
    (htable : llm.lookup job = some (.obj chosen)) (htable' : llm'.lookup job = some (.obj chosen))
    (hsame : ∀ key ∈ ENDPOINT_FIELDS ++ KNOB_FIELDS, setting llm key = setting llm' key) :
    llm_knobs p llm (some job) = llm_knobs p llm' (some job) := by
  have hknobs := collect_congr fun key hkey =>
    lookup_merged_congr chosen hsame (List.mem_append_right ENDPOINT_FIELDS hkey)
  rw [llm_knobs, llm_knobs, resolve_own_table hjob htable, resolve_own_table hjob htable']
  exact congrArg Except.ok hknobs

/-! ## The first endpoint -/

/-- The first endpoint is called `primary` and has the endpoint fields of its table, nothing
inherited. -/
theorem primary_spec (t : Dict) : endpoint_spec (.obj t) "primary" []
    = .ok (("name", .str "primary") :: collect ENDPOINT_FIELDS fun key => t.lookup key) := by
  have hor : (fun key => (t.lookup key).or (List.lookup key ([] : Dict))) = fun key =>
      t.lookup key := by
    funext key
    simp
  rw [endpoint_spec, endpoint_fields_eq, hor]
  rfl

/-- The fallbacks are read from one field of the table. -/
theorem raw_fallbacks_congr {t t' : Dict}
    (h : List.lookup "fallback" t = List.lookup "fallback" t') :
    raw_fallbacks t = raw_fallbacks t' := by
  rw [raw_fallbacks, raw_fallbacks, Dict.get, Dict.get, h]

/-- The endpoints of a job see of `[llm]` only the settings of endpoint fields and knobs. -/
theorem specs_congr {llm llm' chosen : Dict} {job : String} (hjob : job ∈ LLM_JOBS)
    (htable : llm.lookup job = some (.obj chosen)) (htable' : llm'.lookup job = some (.obj chosen))
    (hsame : ∀ key ∈ ENDPOINT_FIELDS ++ KNOB_FIELDS, setting llm key = setting llm' key) :
    llm_endpoint_specs p config_path llm (some job) =
      llm_endpoint_specs p config_path llm' (some job) := by
  have hfields := collect_congr fun key hkey =>
    lookup_merged_congr chosen hsame (List.mem_append_left KNOB_FIELDS hkey)
  have hfall :=
    raw_fallbacks_congr ((lookup_fallback llm chosen).trans (lookup_fallback llm' chosen).symm)
  rw [llm_endpoint_specs, llm_endpoint_specs, resolve_own_table hjob htable,
    resolve_own_table hjob htable']
  show (endpoint_spec (.obj (merged llm chosen)) "primary" [] >>= _)
    = (endpoint_spec (.obj (merged llm' chosen)) "primary" [] >>= _)
  rw [primary_spec, primary_spec, hfields]
  simp only [hfall]

/-! ## The fallbacks -/

/-- Of a value that is no table no field can be read. -/
theorem no_field_of_ok {raw : Json} (hraw : ∀ t, raw ≠ .obj t) {inherit : Dict} {keys : List String}
    {d : Dict} (h : endpoint_fields raw inherit keys = .ok d) :
    ∀ key ∈ keys, raw.contains_str key = .ok false := by
  induction keys generalizing d with
  | nil => simp
  | cons key keys ih =>
    rw [endpoint_fields] at h
    obtain ⟨found, hfound, h⟩ := Except.bind_ok.mp h
    have hin : raw.contains_str key = .ok found := by
      cases hc : raw.contains_str key with
      | error e =>
        rw [hc] at hfound
        cases hfound
      | ok b =>
        rw [hc] at hfound
        exact congrArg Except.ok (Except.ok.inj hfound)
    cases found with
    | true =>
      obtain ⟨v, hv, -⟩ := Except.bind_ok.mp h
      cases raw with
      | obj t => exact absurd rfl (hraw t)
      | _ => cases hv
    | false =>
      obtain ⟨rest, hrest, -⟩ := Except.bind_ok.mp h
      intro k hk
      rcases List.mem_cons.mp hk with rfl | hk
      · exact hin
      · exact ih hrest k hk

/-- A fallback is a table that names its credential; it adds what it may inherit to what it
states. -/
theorem fallback_spec {raw : Json} {name : String} (hname : name ≠ "primary") {inherit spec : Dict}
    (h : endpoint_spec raw name inherit = .ok spec) :
    ∃ t, raw = .obj t ∧ names_credential t = true ∧
      spec = ("name", .str name) ::
        collect ENDPOINT_FIELDS fun key => (t.lookup key).or (inherit.lookup key) := by
  rw [endpoint_spec] at h
  obtain ⟨fields, hfields, h⟩ := Except.bind_ok.mp h
  simp only [hname, ne_eq, not_false_eq_true, if_true] at h
  obtain ⟨env, henv, h⟩ := Except.bind_ok.mp h
  obtain ⟨json, hjson, h⟩ := Except.bind_ok.mp h
  have hnamed : (env || json) = true ∧ spec = ("name", .str name) :: fields := by
    cases env <;> cases json <;> cases h <;> exact ⟨rfl, rfl⟩
  by_cases hraw : ∃ t, raw = .obj t
  · obtain ⟨t, rfl⟩ := hraw
    rw [endpoint_fields_eq] at hfields
    obtain rfl := Except.ok.inj hfields
    obtain rfl := Except.ok.inj henv
    obtain rfl := Except.ok.inj hjson
    exact ⟨t, rfl, hnamed.1, hnamed.2⟩
  · have hnone := no_field_of_ok (fun t ht => hraw ⟨t, ht⟩) hfields
    rw [hnone "api_key_env" (by decide)] at henv
    rw [hnone "api_key_json" (by decide)] at hjson
    obtain rfl := Except.ok.inj henv
    obtain rfl := Except.ok.inj hjson
    exact absurd hnamed.1 (by decide)

/-- A check of an endpoint's identity returns the endpoint or raises. -/
theorem identified {spec spec' : Dict} {place : String}
    (h : require_identity config_path spec place = .ok spec') : spec' = spec := by
  simp only [require_identity] at h
  split at h
  · exact (Except.ok.inj h).symm
  · cases h

/-- No fallback is given the name of the first endpoint. -/
theorem fallback_name_ne (count index : ℕ) :
    (if count = 1 then "fallback" else s!"fallback{index + 1}") ≠ "primary" := by
  split_ifs
  · decide
  · intro h
    have hhead : ("fallback" ++ toString (index + 1)).toList.head? = "primary".toList.head? :=
      congrArg (fun s => s.toList.head?) h
    simp at hhead

/-- What the fallbacks are made of: each states a credential of its own, and its fields are those of
its table over what is inherited. -/
theorem fallback_specs_stated {job : Option String} {inherit : Dict} {count index : ℕ}
    {raws : List Json} {specs : List Dict}
    (h : fallback_specs config_path job inherit count index raws = .ok specs) :
    List.Forall₂ (fun raw spec => ∃ t, raw = .obj t ∧ names_credential t = true ∧
      ∃ name, spec = ("name", .str name) ::
      collect ENDPOINT_FIELDS fun key => (t.lookup key).or (inherit.lookup key)) raws specs := by
  induction raws generalizing index specs with
  | nil =>
    obtain rfl := Except.ok.inj h
    exact .nil
  | cons raw raws ih =>
    rw [fallback_specs] at h
    obtain ⟨spec, hspec, h⟩ := Except.bind_ok.mp h
    obtain ⟨spec', hrequired, h⟩ := Except.bind_ok.mp h
    obtain ⟨rest, hrest, h⟩ := Except.bind_ok.mp h
    obtain rfl := Except.ok.inj h
    obtain rfl := identified hrequired
    obtain ⟨t, hraw, hcred, heq⟩ := fallback_spec (fallback_name_ne count index) hspec
    exact .cons ⟨t, hraw, hcred, _, heq⟩ (ih hrest)

/-! ## The endpoints of a job -/

/-- The run that resolves the endpoints of a job with a table of its own. -/
theorem endpoints_ok {llm chosen primary : Dict} {rest : List Dict} {job : String}
    (hjob : job ∈ LLM_JOBS) (htable : llm.lookup job = some (.obj chosen))
    (h : llm_endpoint_specs p config_path llm (some job) = .ok (primary :: rest)) :
    primary = ("name", .str "primary") ::
      collect ENDPOINT_FIELDS (fun key => (merged llm chosen).lookup key) ∧
      ∃ raws, raw_fallbacks chosen = .ok raws ∧
        fallback_specs config_path (some job) (attribution primary) raws.length 0 raws =
          .ok rest := by
  rw [llm_endpoint_specs, resolve_own_table hjob htable] at h
  obtain ⟨table, htab, h⟩ := Except.bind_ok.mp h
  obtain rfl := Except.ok.inj htab
  obtain ⟨spec, hspec, h⟩ := Except.bind_ok.mp h
  obtain ⟨spec', hrequired, h⟩ := Except.bind_ok.mp h
  obtain ⟨raws, hraws, h⟩ := Except.bind_ok.mp h
  obtain ⟨specs, hspecs, h⟩ := Except.bind_ok.mp h
  obtain ⟨rfl, rfl⟩ := List.cons.inj (Except.ok.inj h)
  obtain rfl := identified hrequired
  rw [primary_spec] at hspec
  rw [raw_fallbacks_congr (lookup_fallback llm chosen)] at hraws
  exact ⟨(Except.ok.inj hspec).symm, raws, hraws, hspecs⟩

/-- A field of an endpoint is looked up past its name. -/
theorem lookup_endpoint (name : String) (f : String → Option Json) {key : String}
    (hkey : key ∈ ENDPOINT_FIELDS) :
    List.lookup key (("name", .str name) :: collect ENDPOINT_FIELDS f) = f key := by
  have hname : (key == "name") = false := by
    revert hkey
    unfold ENDPOINT_FIELDS
    rintro h
    have hne : key ≠ "name" := by
      rintro rfl
      revert h
      decide
    simpa using hne
  simp only [List.lookup_cons, hname]
  rw [lookup_collect, if_pos hkey]

/-- Attribution consists of the two fields that tell who asks. -/
theorem lookup_attribution (primary : Dict) (key : String) : List.lookup key (attribution primary)
    = if key ∈ ["site_url", "app_name"] then primary.lookup key else none :=
  lookup_collect _ _ key

/-- What stands below another job, or in the shared list of fallbacks, is no setting. -/
theorem setting_set (llm : Dict) {other key : String} (v : Json)
    (hother : other ∈ "fallback" :: LLM_JOBS) (hkey : key ∈ ENDPOINT_FIELDS ++ KNOB_FIELDS) :
    setting (llm.set other v) key = setting llm key := by
  have hne : key ≠ other := by
    rintro rfl
    revert key
    decide
  rw [setting, setting, Dict.lookup_set_ne llm v hne]

/-- The endpoints and the knobs of a job with a table of its own depend on that table and on the
settings of `[llm]`, whatever becomes of the other jobs and of the shared fallbacks; its credential
is the one it names; its fallbacks take from the first endpoint who calls, and nothing else. -/
theorem endpoints_apart (p : Printer) (config_path : Option String) {llm chosen : Dict}
    {job : String} (hjob : job ∈ LLM_JOBS) (htable : llm.lookup job = some (.obj chosen)) :
    (∀ llm', llm'.lookup job = some (.obj chosen) →
      (∀ key ∈ ENDPOINT_FIELDS ++ KNOB_FIELDS, setting llm key = setting llm' key) →
      llm_knobs p llm (some job) = llm_knobs p llm' (some job) ∧
      llm_endpoint_specs p config_path llm (some job) =
        llm_endpoint_specs p config_path llm' (some job)) ∧
    (∀ other v, other ∈ "fallback" :: LLM_JOBS → other ≠ job →
      llm_knobs p (llm.set other v) (some job) = llm_knobs p llm (some job) ∧
      llm_endpoint_specs p config_path (llm.set other v) (some job)
        = llm_endpoint_specs p config_path llm (some job)) ∧
    ∀ primary rest, llm_endpoint_specs p config_path llm (some job) = .ok (primary :: rest) →
      (names_credential chosen = true →
        ∀ key ∈ CREDENTIAL_FIELDS, primary.lookup key = chosen.lookup key) ∧
      ∃ raws, raw_fallbacks chosen = .ok raws ∧
        List.Forall₂ (fun raw spec => ∃ t, raw = .obj t ∧ names_credential t = true ∧
          ∀ key ∈ ENDPOINT_FIELDS, List.lookup key spec
            = (t.lookup key).or (if key ∈ ["site_url", "app_name"] then primary.lookup key
              else none)) raws rest := by
  refine ⟨fun llm' htable' hsame => ⟨knobs_congr hjob htable htable' hsame,
    specs_congr hjob htable htable' hsame⟩, fun other v hother hne => ?_, fun primary rest h => ?_⟩
  · have htable' : (llm.set other v).lookup job = some (.obj chosen) := by
      rw [Dict.lookup_set_ne llm v hne.symm, htable]
    have hsame : ∀ key ∈ ENDPOINT_FIELDS ++ KNOB_FIELDS,
        setting (llm.set other v) key = setting llm key :=
      fun key hkey => setting_set llm v hother hkey
    exact ⟨knobs_congr hjob htable' htable hsame, specs_congr hjob htable' htable hsame⟩
  obtain ⟨hprimary, raws, hraws, hspecs⟩ := endpoints_ok hjob htable h
  refine ⟨fun hcred key hkey => ?_, raws, hraws, ?_⟩
  -- a job that names a credential takes none of the shared ones
  · have hfield : key ∈ ENDPOINT_FIELDS := by
      revert key
      decide
    have hne : key ≠ "fallback" := fields_ne_fallback (List.mem_append_left KNOB_FIELDS hfield)
    rw [hprimary, lookup_endpoint "primary" _ hfield, lookup_inherited llm chosen hne, hcred]
    cases hc : chosen.contains key with
    | true => simp
    | false =>
      rw [Dict.contains, Option.isSome_eq_false_iff, Option.isNone_iff_eq_none] at hc
      simp [hkey, hc]
  · refine (fallback_specs_stated hspecs).imp fun raw spec hspec => ?_
    obtain ⟨t, hraw, hnamed, name, rfl⟩ := hspec
    refine ⟨t, hraw, hnamed, fun key hkey => ?_⟩
    rw [lookup_endpoint name _ hkey, lookup_attribution]

/-- A job that names its credential. -/
def draft_table : Dict :=
  [("api_key_json", .str "key.json"), ("max_tokens", .int 900),
    ("fallback", .obj [("model", .str "other"), ("base_url", .str "https://b"),
      ("api_key_env", .str "B")])]

def shared_llm : Dict :=
  [("model", .str "large"), ("base_url", .str "https://a"), ("api_key_env", .str "A"),
    ("app_name", .str "memline"), ("judge", .obj [("model", .str "small")]),
    ("fallback", .obj [("model", .str "spare")]), ("draft", .obj draft_table)]

/-- A key for the judge changes nothing for the drafts, whose endpoints exist all the same. -/
theorem draft_endpoints_apart :
    llm_endpoint_specs .plain none (shared_llm.set "judge" (.obj [("api_key_env", .str "J")]))
      (some "draft")
      = llm_endpoint_specs .plain none shared_llm (some "draft") ∧
    ∃ primary rest, llm_endpoint_specs .plain none shared_llm (some "draft") =
      .ok (primary :: rest) ∧
      primary.lookup "api_key_env" = none := by
  have h := @endpoints_apart .plain none shared_llm draft_table "draft" (by decide) (by rfl)
  refine ⟨(h.2.1 "judge" _ (by decide) (by decide)).2, ?_⟩
  obtain ⟨primary, rest, hspecs⟩ : ∃ primary rest,
      llm_endpoint_specs .plain none shared_llm (some "draft") = .ok (primary :: rest) :=
    ⟨_, _, rfl⟩
  exact ⟨primary, rest, hspecs, (h.2.2 primary rest hspecs).1 (by rfl) "api_key_env" (by decide)⟩

/-- What a table says of a key with a value that is no container. -/
def scalar (llm : Dict) (key : String) : Option Json :=
  match llm.lookup key with
  | some (.list _) => none
  | _ => setting llm key

/-- A configuration whose model is an array. -/
def listed_llm (model : String) : Dict :=
  [("model", .list [.str model]), ("base_url", .str "https://a"), ("api_key_env", .str "A"),
    ("draft", .obj [])]

/-- An array is no scalar, and a job takes it from `[llm]` all the same. -/
theorem array_inherited : (∀ key, scalar (listed_llm "a") key = scalar (listed_llm "b") key) ∧
    (listed_llm "a").lookup "draft" = some (.obj []) ∧
      (listed_llm "b").lookup "draft" = some (.obj []) ∧
    llm_endpoint_specs .plain none (listed_llm "a") (some "draft")
      ≠ llm_endpoint_specs .plain none (listed_llm "b") (some "draft") := by
  refine ⟨fun key => ?_, rfl, rfl, by decide +kernel⟩
  by_cases hkey : key = "model"
  · subst hkey
    rfl
  · have hne : (key == "model") = false := by simpa using hkey
    simp only [scalar, setting, listed_llm, List.lookup_cons, List.lookup_nil, hne]

end Memline.config

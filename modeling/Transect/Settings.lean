import Transect.Config

/-!
# Settings

One store for all settings, by section and field. It starts out with the standard values and takes
any value for any field.
-/
namespace Transect

namespace SamplingConfig

def fields (c : SamplingConfig) : List (String × Setting) :=
  [("strategy", c.strategy), ("unit_step", c.unitStep)]

end SamplingConfig

def ProfileConfig.fields (c : ProfileConfig Float) : List (String × Setting) :=
  [("nsamples", .whole c.footprint), ("max_condition_number", .real c.conditionLimit)]

def SearchConfig.fields (c : SearchConfig Float) : List (String × Setting) :=
  [("search_samples", .whole c.window), ("convergence_threshold", .real c.threshold),
    ("max_iterations", .whole c.stepLimit)]

/-- A section is a list of fields, the settings are a list of sections. -/
structure Settings where
  sections : List (String × List (String × Setting))

namespace Settings

def standard : Settings where
  sections := [("sampling", SamplingConfig.fields {}), ("profile", ProfileConfig.standard.fields),
    ("search", SearchConfig.standard.fields)]

def get? (s : Settings) (group field : String) : Option Setting :=
  (s.sections.lookup group).bind (·.lookup field)

/-- Puts a value under a name: in its old place if the name is there, else at the end. -/
def put {β : Type} (name : String) (value : β) : List (String × β) → List (String × β)
  | [] => [(name, value)]
  | (n, v) :: rest => if n = name then (n, value) :: rest else (n, v) :: put name value rest

theorem lookup_put {β : Type} (name : String) (value : β) (fields : List (String × β)) :
    (put name value fields).lookup name = some value := by
  induction fields with
  | nil => simp [put]
  | cons field rest ih =>
    obtain ⟨n, v⟩ := field
    by_cases h : n = name
    · simp [put, h]
    · simpa [put, h, List.lookup_cons, beq_eq_false_iff_ne.2 (Ne.symm h)] using ih

theorem lookup_put_of_ne {β : Type} {name other : String} (h : other ≠ name) (value : β)
    (fields : List (String × β)) :
    (put name value fields).lookup other = fields.lookup other := by
  induction fields with
  | nil => simp [put, List.lookup_cons, beq_eq_false_iff_ne.2 h]
  | cons field rest ih =>
    obtain ⟨n, v⟩ := field
    by_cases hn : n = name
    · simp [put, hn, List.lookup_cons, beq_eq_false_iff_ne.2 h]
    · simp [put, hn, List.lookup_cons, ih]

def set (s : Settings) (group field : String) (value : Setting) : Settings where
  sections := s.sections.map fun (n, fields) =>
    if n = group then (n, put field value fields) else (n, fields)

theorem lookup_set (s : Settings) (group field : String) (value : Setting) (g : String) :
    (s.set group field value).sections.lookup g =
      (s.sections.lookup g).map fun fields =>
        if g = group then put field value fields else fields := by
  unfold set
  dsimp only
  induction s.sections with
  | nil => rfl
  | cons first rest ih =>
    obtain ⟨n, fields⟩ := first
    by_cases hg : g = n
    · subst hg
      by_cases hn : g = group <;> simp [hn]
    · have hskip : (g == n) = false := beq_eq_false_iff_ne.2 hg
      by_cases hn : n = group
      · rw [List.map_cons, if_pos hn, List.lookup_cons, List.lookup_cons, hskip]
        exact ih
      · rw [List.map_cons, if_neg hn, List.lookup_cons, List.lookup_cons, hskip]
        exact ih

/-- A value that has been set is read back, and no other one has changed. -/
theorem get?_set {s : Settings} {group : String} (h : (s.sections.lookup group).isSome)
    (field : String) (value : Setting) (g f : String) :
    (s.set group field value).get? g f =
      if g = group ∧ f = field then some value else s.get? g f := by
  unfold get?
  rw [lookup_set]
  by_cases hg : g = group
  · subst hg
    obtain ⟨fields, hfields⟩ := Option.isSome_iff_exists.mp h
    rw [hfields, Option.map_some, if_pos rfl, Option.bind_some, Option.bind_some]
    by_cases hf : f = field
    · rw [if_pos ⟨rfl, hf⟩, hf, lookup_put]
    · rw [if_neg fun hboth => hf hboth.2, lookup_put_of_ne hf]
  · rw [if_neg fun hboth => hg hboth.1]
    cases s.sections.lookup g with
    | none => rfl
    | some fields => rw [Option.map_some, if_neg hg]

def ruler : String := String.ofList (List.replicate 60 '=')

def listing : List String :=
  let sampling : SamplingConfig := {}
  let profile : ProfileConfig Float := .standard
  let search : SearchConfig Float := .standard
  [ruler, "Profile Model Configuration", ruler,
    "Sampling:",
    "  Strategy: " ++ sampling.strategy.shown,
    "  Unit step: " ++ sampling.unitStep.shown,
    "",
    "Profile:",
    "  Samples per band: " ++ toString profile.footprint,
    "  Max condition number: " ++ Text.scientific 1 profile.conditionLimit,
    "",
    "Search:",
    "  Search samples: " ++ toString search.window,
    "  Convergence threshold: " ++ Text.fixed 3 search.threshold,
    "  Max iterations: " ++ toString search.stepLimit,
    ruler]

end Settings

end Transect

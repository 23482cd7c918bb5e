import Mathlib.Data.List.Basic

/-! Labelled machines given by a partial step function. A run is a list of
labels; `Always` speaks about every state along it and `Meets` about the state
before every step, so that a theorem about the runs whose steps meet a
condition is an induction over the labels. -/
namespace Cotamer.Transition

variable {S L : Type}

/-- The labels `ls` lead from one state to another. -/
inductive Reaches (step : S → L → Option S) : S → List L → S → Prop where
  | refl (s) : Reaches step s [] s
  | next : step s l = some t → Reaches step t ls u → Reaches step s (l :: ls) u

/-- Executable form of `Reaches`; `none` when some label is not enabled. -/
def run (step : S → L → Option S) : S → List L → Option S
  | s, [] => some s
  | s, l :: ls => (step s l).bind fun t => run step t ls

/-- Every step of the run meets `ok` in the state before it. -/
def Meets (step : S → L → Option S) (ok : S → L → Prop) : S → List L → Prop
  | _, [] => True
  | s, l :: ls => ok s l ∧ ∀ t, step s l = some t → Meets step ok t ls

/-- `P` holds in every state the labels reach, the first one included. -/
def Always (step : S → L → Option S) (P : S → Prop) : S → List L → Prop
  | s, [] => P s
  | s, l :: ls => P s ∧ ∀ t, step s l = some t → Always step P t ls

variable {step : S → L → Option S} {ok : S → L → Prop} {P Q : S → Prop}

instance decidableMeets [∀ s l, Decidable (ok s l)] : ∀ s ls, Decidable (Meets step ok s ls)
  | _, [] => isTrue trivial
  | s, l :: ls =>
    match moved : step s l with
    | none => decidable_of_iff (ok s l) (by simp [Meets, moved])
    | some t =>
      have : Decidable (Meets step ok t ls) := decidableMeets t ls
      decidable_of_iff (ok s l ∧ Meets step ok t ls) (by simp [Meets, moved])

instance decidableAlways [DecidablePred P] : ∀ s ls, Decidable (Always step P s ls)
  | s, [] => inferInstanceAs (Decidable (P s))
  | s, l :: ls =>
    match moved : step s l with
    | none => decidable_of_iff (P s) (by simp [Always, moved])
    | some t =>
      have : Decidable (Always step P t ls) := decidableAlways t ls
      decidable_of_iff (P s ∧ Always step P t ls) (by simp [Always, moved])

theorem run_iff_reaches : run step s ls = some t ↔ Reaches step s ls t := by
  constructor
  · intro ran
    induction ls generalizing s with
    | nil =>
      cases Option.some.inj ran
      exact .refl _
    | cons l ls ih =>
      obtain ⟨u, moved, rest⟩ := Option.bind_eq_some_iff.mp ran
      exact .next moved (ih rest)
  · intro path
    induction path with
    | refl => rfl
    | next moved _ ih => simp only [run, moved, Option.bind_some, ih]

theorem Reaches.trans (first : Reaches step s ls t) (second : Reaches step t ms u) :
    Reaches step s (ls ++ ms) u := by
  induction first with
  | refl => exact second
  | next moved _ ih => exact .next moved (ih second)

theorem Meets.cons (moved : step s l = some t) (now : ok s l) (rest : Meets step ok t ls) :
    Meets step ok s (l :: ls) := by
  refine ⟨now, fun u moved' => ?_⟩
  cases Option.some.inj (moved.symm.trans moved')
  exact rest

theorem Meets.of_forall {ok : L → Prop} (all : ∀ l ∈ ls, ok l) : Meets step (fun _ l => ok l) s ls := by
  induction ls generalizing s with
  | nil => trivial
  | cons l ls ih =>
    exact ⟨all l List.mem_cons_self, fun t _ => ih fun l member => all l (List.mem_cons_of_mem _ member)⟩

theorem Meets.front (meets : Meets step ok s (ls ++ ms)) : Meets step ok s ls := by
  induction ls generalizing s with
  | nil => trivial
  | cons l ls ih => exact ⟨meets.1, fun t moved => ih (meets.2 t moved)⟩

theorem Meets.suffix (meets : Meets step ok s (ls ++ ms)) (path : Reaches step s ls t) :
    Meets step ok t ms := by
  induction path with
  | refl => exact meets
  | next moved _ ih => exact ih (meets.2 _ moved)

theorem Meets.mono {ok' : S → L → Prop} (imp : ∀ s l, ok s l → ok' s l)
    (meets : Meets step ok s ls) : Meets step ok' s ls := by
  induction ls generalizing s with
  | nil => trivial
  | cons l ls ih => exact ⟨imp s l meets.1, fun t moved => ih (meets.2 t moved)⟩

theorem Reaches.invariant (preserves : ∀ {s l t}, P s → step s l = some t → P t)
    (path : Reaches step s ls t) (initial : P s) : P t := by
  induction path with
  | refl => exact initial
  | next moved _ ih => exact ih (preserves initial moved)

/-- The invariant rule for runs whose steps all meet a condition. -/
theorem Reaches.guarded (preserves : ∀ {s l t}, P s → ok s l → step s l = some t → P t)
    (path : Reaches step s ls t) (meets : Meets step ok s ls) (initial : P s) : P t := by
  induction path with
  | refl => exact initial
  | next moved _ ih => exact ih (meets.2 _ moved) (preserves initial meets.1 moved)

theorem Always.head (all : Always step P s ls) : P s := by
  cases ls with
  | nil => exact all
  | cons => exact all.1

theorem Always.mono (all : Always step P s ls) (imp : ∀ s, P s → Q s) : Always step Q s ls := by
  induction ls generalizing s with
  | nil => exact imp s all
  | cons l ls ih => exact ⟨imp s all.1, fun t moved => ih (all.2 t moved)⟩

/-- The invariant rule for runs whose states all satisfy `P`. -/
theorem Reaches.within (preserves : ∀ {s l t}, Q s → P s → P t → step s l = some t → Q t)
    (path : Reaches step s ls t) (all : Always step P s ls) (initial : Q s) : Q t := by
  induction path with
  | refl => exact initial
  | next moved _ ih =>
    have tail := all.2 _ moved
    exact ih tail (preserves initial all.1 tail.head moved)

/-- The invariant rule for runs whose steps meet a condition and whose states all
satisfy `P`. -/
theorem Reaches.guardedWithin
    (preserves : ∀ {s l t}, Q s → P s → P t → ok s l → step s l = some t → Q t)
    (path : Reaches step s ls t) (meets : Meets step ok s ls) (all : Always step P s ls)
    (initial : Q s) : Q t := by
  induction path with
  | refl => exact initial
  | next moved _ ih =>
    have tail := all.2 _ moved
    exact ih (meets.2 _ moved) tail (preserves initial all.1 tail.head meets.1 moved)

theorem Always.reached (all : Always step P s (ls ++ ms)) (path : Reaches step s ls t) : P t := by
  induction path with
  | refl => exact all.head
  | next moved _ ih => exact ih (all.2 _ moved)

theorem always_of_meets (preserves : ∀ {s l t}, P s → ok s l → step s l = some t → P t)
    (meets : Meets step ok s ls) (initial : P s) : Always step P s ls := by
  induction ls generalizing s with
  | nil => exact initial
  | cons l ls ih =>
    refine ⟨initial, fun t moved => ?_⟩
    exact ih (meets.2 t moved) (preserves initial meets.1 moved)

theorem meets_of_always (shows : ∀ {s l t}, P s → step s l = some t → P t → ok s l)
    (enabled : Reaches step s ls u) (all : Always step P s ls) : Meets step ok s ls := by
  induction enabled with
  | refl => trivial
  | next moved _ ih =>
    have tail := all.2 _ moved
    exact Meets.cons moved (shows all.1 moved tail.head) (ih tail)

theorem Meets.both {ok' : S → L → Prop} (meets : Meets step ok s ls) (meets' : Meets step ok' s ls) :
    Meets step (fun s l => ok s l ∧ ok' s l) s ls := by
  induction ls generalizing s with
  | nil => trivial
  | cons l ls ih => exact ⟨⟨meets.1, meets'.1⟩, fun t moved => ih (meets.2 t moved) (meets'.2 t moved)⟩

/-- Step conditions that are exact, in the presence of an invariant, are exact
for whole runs. -/
theorem always_iff_meets (preserves : ∀ {s l t}, Q s → P s → ok s l → step s l = some t → Q t)
    (exact : ∀ {s l t}, Q s → P s → step s l = some t → (P t ↔ ok s l))
    (enabled : Reaches step s ls u) (inv : Q s) (initial : P s) :
    Always step P s ls ↔ Meets step ok s ls := by
  induction enabled with
  | refl => exact ⟨fun _ => trivial, fun _ => initial⟩
  | next moved rest ih =>
    constructor
    · rintro ⟨_, tail⟩
      have kept := (exact inv initial moved).mp (tail _ moved).head
      refine ⟨kept, fun t moved' => ?_⟩
      cases Option.some.inj (moved.symm.trans moved')
      exact (ih (preserves inv initial kept moved) (tail _ moved).head).mp (tail _ moved)
    · rintro ⟨kept, tail⟩
      refine ⟨initial, fun t moved' => ?_⟩
      cases Option.some.inj (moved.symm.trans moved')
      exact (ih (preserves inv initial kept moved) ((exact inv initial moved).mpr kept)).mpr
        (tail _ moved)

end Cotamer.Transition

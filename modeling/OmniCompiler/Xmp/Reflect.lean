import OmniCompiler.Concurrency.Interleaving

/-!
# Widths of a reflect (`xmp_reflect.c`)

The widths given by `_XMP_set_reflect__` wait in arrays of the process for the next reflect,
which takes them, or the full shadow widths of its array if there are none, and clears what
belongs to the dimensions of its array. It returns early on a single node, where the array is not
allocated, and, being asynchronous, where there is nothing to exchange.
-/
namespace OmniCompiler.Xmp

open Interleaving

/-- The widths of one dimension; `isPeriodic` is -1 in a schedule that has not been made. -/
@[ext] structure Width where
  lower : ℤ
  upper : ℤ
  isPeriodic : ℤ
  deriving DecidableEq

def Width.zero : Width := ⟨0, 0, 0⟩

def Width.moves (w : Width) : Bool := decide (w.lower ≠ 0 ∨ w.upper ≠ 0)

theorem Width.moves_eq_false {w : Width} : w.moves = false ↔ w.lower = 0 ∧ w.upper = 0 := by
  simp [Width.moves]

inductive ShadowType
  | none
  | normal
  | full
  deriving DecidableEq

/-- What a reflect reads of an array descriptor: the widths of the shadow areas and those of the
schedules made before. -/
structure ReflectArray where
  dim : ℕ
  isAllocated : Bool
  shadowType : ℕ → ShadowType
  shadowSizeLo : ℕ → ℤ
  shadowSizeHi : ℕ → ℤ
  reflectSched : ℕ → Width
  asyncReflect : Option (ℕ → Width)

/-- `_xmpf_set_reflect_flag` and the arrays of widths. -/
structure ReflectSettings where
  flag : Bool
  width : ℕ → Width

namespace ReflectArray

variable (a : ReflectArray)

def fullWidth (i : ℕ) : Width := ⟨a.shadowSizeLo i, a.shadowSizeHi i, 0⟩

/-- The widths after the loop that puts the shadow widths in where there is no setting. -/
def defaults (s : ReflectSettings) (i : ℕ) : Width :=
  if s.flag = false ∧ i < a.dim then a.fullWidth i else s.width i

def reset (width : ℕ → Width) : ReflectSettings where
  flag := false
  width i := if i < a.dim then Width.zero else width i

/-- The dimensions that are counted by `reflect_ndims`. -/
def moving (width : ℕ → Width) : List ℕ := (List.range a.dim).filter fun i => (width i).moves

def schedule (width : ℕ → Width) (i : ℕ) : Width :=
  if (a.reflectSched i).isPeriodic = -1 ∨ (width i).lower ≠ (a.reflectSched i).lower ∨
      (width i).upper ≠ (a.reflectSched i).upper ∨
      (width i).isPeriodic ≠ (a.reflectSched i).isPeriodic then width i
  else a.reflectSched i

/-- The widths that `_XMP_reflect__` and `_XMP_reflect_async_cardinal` use in dimension `i`. -/
def usesCardinal (width : ℕ → Width) (i : ℕ) : Option Width :=
  match a.shadowType i with
  | .none => none
  | .normal => some (if (width i).moves then a.schedule width i else width i)
  | .full => none

/-- The widths that `_XMP_reflect_async_ordinal` uses. -/
def usesOrdinal (width : ℕ → Width) (i : ℕ) : Option Width :=
  match a.asyncReflect with
  | none => some (width i)
  | some sched => if ∀ j < a.dim, sched j = width j then some (sched i) else some (width i)

end ReflectArray

/-- The state, and the calls of `_XMP_set_reflect__` since the last reflect, the latest first. -/
structure ReflectState where
  settings : ReflectSettings
  since : List (ℕ × Width)

inductive ReflectCall
  | setReflect (dim : ℕ) (w : Width)
  | reflect (a : ReflectArray)
  | reflectAsync (a : ReflectArray)

def nMaxDim : ℕ := 7

section Code

variable (worldSize : ℕ)

def setReflect (dim : ℕ) (w : Width) (s : ReflectSettings) : ReflectSettings where
  flag := true
  width := Function.update s.width dim w

/-- The settings after `_XMP_reflect__`. -/
def reflect (a : ReflectArray) (s : ReflectSettings) : ReflectSettings :=
  if worldSize = 1 then s
  else if a.isAllocated then a.reset (a.defaults s)
  else { s with flag := false }

/-- The settings after `_XMP_reflect_async__`. -/
def reflectAsync (a : ReflectArray) (s : ReflectSettings) : Option ReflectSettings :=
  if worldSize = 1 then some s
  else if a.isAllocated then
    if s.flag = false ∧ ∃ i < a.dim, a.shadowType i = .full then none
    else if a.moving (a.defaults s) = [] then some { s with width := a.defaults s }
    else some (a.reset (a.defaults s))
  else some { s with flag := false }

def reflectStep : ReflectCall → ReflectState → Option ReflectState
  | .setReflect dim w, s =>
    if dim < nMaxDim then some ⟨setReflect dim w s.settings, (dim, w) :: s.since⟩ else none
  | .reflect a, s => some ⟨reflect worldSize a s.settings, []⟩
  | .reflectAsync a, s => (reflectAsync worldSize a s.settings).map fun t => ⟨t, []⟩

/-- The widths that a call uses, if it gets as far as using any. -/
def reflectUses : ReflectCall → ReflectSettings → Option (ReflectArray × (ℕ → Option Width))
  | .setReflect _ _, _ => none
  | .reflect a, s =>
    if worldSize = 1 ∨ a.isAllocated = false then none
    else some (a, a.usesCardinal (a.defaults s))
  | .reflectAsync a, s =>
    if worldSize = 1 ∨ a.isAllocated = false ∨
      (s.flag = false ∧ ∃ i < a.dim, a.shadowType i = .full) then none
    else if (a.moving (a.defaults s)).length ≤ 1 then some (a, a.usesCardinal (a.defaults s))
    else some (a, a.usesOrdinal (a.defaults s))

end Code

def ReflectState.start : ReflectState := ⟨⟨false, fun _ => Width.zero⟩, []⟩

/-- What the calls of `_XMP_set_reflect__` ask for. -/
def givenWidth (a : ReflectArray) (since : List (ℕ × Width)) (i : ℕ) : Width :=
  if since = [] then a.fullWidth i else (since.lookup i).getD Width.zero

/-- The call leaves no setting behind: nothing is set where the array is not allocated, nothing is
set beyond the dimensions of the array, and nothing at all is set before an asynchronous reflect
that has nothing to exchange. -/
def TakesAll (worldSize : ℕ) : ReflectCall → ReflectState → Prop
  | .setReflect _ _, _ => True
  | .reflect a, s => worldSize = 1 ∨
      ∀ i, (a.isAllocated = true → a.dim ≤ i) → s.settings.width i = Width.zero
  | .reflectAsync a, s => worldSize = 1 ∨
      (∀ i, (a.isAllocated = true → a.dim ≤ i) → s.settings.width i = Width.zero) ∧
        (a.isAllocated = true → a.moving (a.defaults s.settings) = [] → s.settings.flag = false)

structure ReflectState.Pending (s : ReflectState) : Prop where
  flag : s.settings.flag = false ↔ s.since = []
  width : ∀ i, s.settings.width i = (s.since.lookup i).getD Width.zero

variable {worldSize : ℕ} {s s' : ReflectState} {a : ReflectArray}

theorem pending_start : ReflectState.start.Pending := ⟨by simp [ReflectState.start], fun _ => rfl⟩

theorem pending_of_clear {t : ReflectSettings} (hflag : t.flag = false)
    (hwidth : ∀ i, t.width i = Width.zero) : (⟨t, []⟩ : ReflectState).Pending :=
  ⟨by simp [hflag], hwidth⟩

theorem ReflectState.Pending.setReflect (h : s.Pending) (dim : ℕ) (w : Width) :
    (⟨Xmp.setReflect dim w s.settings, (dim, w) :: s.since⟩ : ReflectState).Pending where
  flag := by simp [Xmp.setReflect]
  width i := by
    by_cases hi : i = dim
    · subst hi
      simp [Xmp.setReflect]
    · have hne : (i == dim) = false := by simpa using hi
      simp [Xmp.setReflect, hi, List.lookup_cons, hne, h.width i]

theorem reset_clear {t : ReflectSettings} (h : ∀ i, a.dim ≤ i → t.width i = Width.zero) (i : ℕ) :
    (a.reset (a.defaults t)).width i = Width.zero := by
  rw [ReflectArray.reset]
  dsimp only
  split_ifs with hi
  · rfl
  · rw [ReflectArray.defaults, if_neg fun hd => hi hd.2]
    exact h i (Nat.le_of_not_lt hi)

theorem defaults_clear {t : ReflectSettings} (h : ∀ i, a.dim ≤ i → t.width i = Width.zero)
    (hnone : a.moving (a.defaults t) = []) (hflag : t.flag = false) (i : ℕ) :
    a.defaults t i = Width.zero := by
  by_cases hi : i < a.dim
  · have hstill : (a.defaults t i).moves = false := by
      rw [Bool.eq_false_iff]
      intro hmoves
      have hmem : i ∈ a.moving (a.defaults t) :=
        List.mem_filter.mpr ⟨List.mem_range.mpr hi, hmoves⟩
      rw [hnone] at hmem
      cases hmem
    rw [ReflectArray.defaults, if_pos ⟨hflag, hi⟩] at hstill ⊢
    obtain ⟨hlower, hupper⟩ := Width.moves_eq_false.mp hstill
    exact Width.ext hlower hupper rfl
  · rw [ReflectArray.defaults, if_neg fun hd => hi hd.2]
    exact h i (Nat.le_of_not_lt hi)

theorem ReflectState.Pending.step {c : ReflectCall} (hworld : worldSize ≠ 1) (h : s.Pending)
    (hok : TakesAll worldSize c s) (hs : reflectStep worldSize c s = some s') : s'.Pending := by
  cases c with
  | setReflect dim w =>
    simp only [reflectStep] at hs
    split_ifs at hs
    obtain rfl := Option.some.inj hs
    exact h.setReflect dim w
  | reflect a =>
    obtain rfl := Option.some.inj hs
    have hclear := hok.resolve_left hworld
    rw [Xmp.reflect, if_neg hworld]
    split_ifs with halloc
    · exact pending_of_clear rfl (reset_clear fun i hi => hclear i fun _ => hi)
    · exact pending_of_clear rfl fun i => hclear i fun h => absurd h halloc
  | reflectAsync a =>
    obtain ⟨t, ht, rfl⟩ := Option.map_eq_some_iff.mp hs
    obtain ⟨hclear, hnone⟩ := hok.resolve_left hworld
    rw [Xmp.reflectAsync, if_neg hworld] at ht
    split_ifs at ht with halloc hfull hmoving
    · obtain rfl := Option.some.inj ht
      have hflag := hnone halloc hmoving
      exact pending_of_clear hflag (defaults_clear (fun i hi => hclear i fun _ => hi) hmoving hflag)
    · obtain rfl := Option.some.inj ht
      exact pending_of_clear rfl (reset_clear fun i hi => hclear i fun _ => hi)
    · obtain rfl := Option.some.inj ht
      exact pending_of_clear rfl fun i => hclear i fun h => absurd h halloc

theorem pending_of_reachable (hworld : worldSize ≠ 1)
    (h : ReachableIf (· = ReflectState.start) (TakesAll worldSize) (reflectStep worldSize) s) :
    s.Pending := by
  apply h.invariant
  · intro s hs
    rw [hs]
    exact pending_start
  · intro c s s' hs hok hstep
    exact hs.step hworld hok hstep

theorem ReflectState.Pending.defaults (h : s.Pending) {i : ℕ} (hi : i < a.dim) :
    a.defaults s.settings i = givenWidth a s.since i := by
  rw [ReflectArray.defaults, givenWidth]
  by_cases hnone : s.since = []
  · rw [if_pos ⟨h.flag.mpr hnone, hi⟩, if_pos hnone]
  · rw [if_neg fun hd => hnone (h.flag.mp hd.1), if_neg hnone]
    exact h.width i

theorem schedule_eq (a : ReflectArray) (width : ℕ → Width) (i : ℕ) :
    a.schedule width i = width i := by
  rw [ReflectArray.schedule]
  split_ifs with hnew
  · rfl
  · simp only [not_or, not_not] at hnew
    obtain ⟨-, hlower, hupper, hperiodic⟩ := hnew
    exact Width.ext hlower.symm hupper.symm hperiodic.symm

theorem usesCardinal_eq {width : ℕ → Width} {i : ℕ} {w : Width}
    (h : a.usesCardinal width i = some w) : w = width i := by
  unfold ReflectArray.usesCardinal at h
  split at h
  · cases h
  · rw [← Option.some.inj h]
    split_ifs
    · exact schedule_eq a width i
    · rfl
  · cases h

theorem usesOrdinal_eq {width : ℕ → Width} {i : ℕ} {w : Width} (hi : i < a.dim)
    (h : a.usesOrdinal width i = some w) : w = width i := by
  unfold ReflectArray.usesOrdinal at h
  split at h
  · exact (Option.some.inj h).symm
  · split_ifs at h with hsame
    · rw [← Option.some.inj h]
      exact hsame i hi
    · exact (Option.some.inj h).symm

theorem reflectUses_world {c : ReflectCall} {u : ReflectArray × (ℕ → Option Width)}
    (h : reflectUses worldSize c s.settings = some u) : worldSize ≠ 1 := by
  intro hworld
  cases c with
  | setReflect dim w => cases h
  | reflect a => simp [reflectUses, hworld] at h
  | reflectAsync a => simp [reflectUses, hworld] at h

/-- The widths that a reflect uses are those of its array after the defaults. -/
theorem reflectUses_eq {c : ReflectCall} {uses : ℕ → Option Width}
    (h : reflectUses worldSize c s.settings = some (a, uses)) {i : ℕ} (hi : i < a.dim) {w : Width}
    (hw : uses i = some w) : w = a.defaults s.settings i := by
  cases c with
  | setReflect dim w => cases h
  | reflect b =>
    simp only [reflectUses] at h
    split_ifs at h
    cases h
    exact usesCardinal_eq hw
  | reflectAsync b =>
    simp only [reflectUses] at h
    split_ifs at h
    · cases h
      exact usesCardinal_eq hw
    · cases h
      exact usesOrdinal_eq hi hw

/-- In a run where every call takes all settings, a reflect uses the widths given since the last
one, or the full shadow widths of its array. -/
theorem reflect_uses_given (h : ReachableIf (· = ReflectState.start) (TakesAll worldSize)
    (reflectStep worldSize) s) (c : ReflectCall) {uses : ℕ → Option Width}
    (huses : reflectUses worldSize c s.settings = some (a, uses)) {i : ℕ} (hi : i < a.dim)
    {w : Width} (hw : uses i = some w) : w = givenWidth a s.since i := by
  have hpending := pending_of_reachable (reflectUses_world huses) h
  rw [reflectUses_eq huses hi hw]
  exact hpending.defaults hi

/-- Two dimensions with shadow areas of one element, allocated or not. -/
def squareArray (isAllocated : Bool) : ReflectArray where
  dim := 2
  isAllocated := isAllocated
  shadowType _ := .normal
  shadowSizeLo _ := 1
  shadowSizeHi _ := 1
  reflectSched _ := ⟨0, 0, -1⟩
  asyncReflect := none

/-- Widths for dimension 1, a reflect that takes them, and widths for dimension 0. -/
def secondReflect : ReflectState where
  settings := setReflect 0 ⟨1, 0, 0⟩ (reflect 4 (squareArray true)
    (setReflect 1 ⟨1, 1, 1⟩ ReflectState.start.settings))
  since := [(0, ⟨1, 0, 0⟩)]

theorem reachable_secondReflect :
    ReachableIf (· = ReflectState.start) (TakesAll 4) (reflectStep 4) secondReflect := by
  have hset : TakesAll 4 (.setReflect 1 ⟨1, 1, 1⟩) ReflectState.start := trivial
  have hall : TakesAll 4 (.reflect (squareArray true))
      ⟨setReflect 1 ⟨1, 1, 1⟩ ReflectState.start.settings, [(1, ⟨1, 1, 1⟩)]⟩ := by
    refine Or.inr fun i hi => ?_
    have hi' : i ≠ 1 := by
      rintro rfl
      exact absurd (hi rfl) (by decide)
    exact Function.update_of_ne hi' _ _
  have hagain : TakesAll 4 (.setReflect 0 ⟨1, 0, 0⟩) ⟨reflect 4 (squareArray true)
      (setReflect 1 ⟨1, 1, 1⟩ ReflectState.start.settings), []⟩ := trivial
  exact .step _ (.step _ (.step _ (.start rfl) hset rfl) hall rfl) hagain rfl

/-- The second reflect uses the widths for dimension 0, and none for dimension 1. -/
theorem reflect_uses_second : ∃ uses,
    reflectUses 4 (.reflect (squareArray true)) secondReflect.settings =
      some (squareArray true, uses) ∧
    ∀ i < 2, uses i = some (givenWidth (squareArray true) [(0, ⟨1, 0, 0⟩)] i) := by
  refine ⟨_, rfl, fun i hi => ?_⟩
  obtain rfl | rfl : i = 0 ∨ i = 1 := by omega
  · exact congrArg some
      (reflect_uses_given reachable_secondReflect (.reflect (squareArray true)) rfl
      (by decide) rfl)
  · exact congrArg some
      (reflect_uses_given reachable_secondReflect (.reflect (squareArray true)) rfl
      (by decide) rfl)

/-- Widths for dimension 0, a reflect on a node without the array, widths for dimension 1, and a
reflect on a node with the array, which uses those for dimension 0 as well. -/
theorem reflect_uses_old : ¬ ∀ (worldSize : ℕ) (s : ReflectState),
    Reachable (· = ReflectState.start) (reflectStep worldSize) s → ∀ c a uses,
      reflectUses worldSize c s.settings = some (a, uses) → ∀ i < a.dim, ∀ w,
        uses i = some w → w = givenWidth a s.since i := by
  intro hall
  have hrun : run (reflectStep 4) [.setReflect 0 ⟨1, 1, 0⟩, .reflect (squareArray false),
      .setReflect 1 ⟨1, 1, 0⟩] ReflectState.start = some
        ⟨setReflect 1 ⟨1, 1, 0⟩ (reflect 4 (squareArray false)
          (setReflect 0 ⟨1, 1, 0⟩ ReflectState.start.settings)), [(1, ⟨1, 1, 0⟩)]⟩ := rfl
  have hold := hall 4 _ (reachable_of_run _ rfl hrun) (.reflect (squareArray true))
    (squareArray true) _ rfl 0 (by decide) ⟨1, 1, 0⟩ rfl
  exact absurd hold (by decide)

end OmniCompiler.Xmp

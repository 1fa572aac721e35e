import OmniCompiler.Xmp.SortMerge
import Mathlib.Logic.Relation

/-!
# Pivots that wrap around (`xmp_sort.c`)

The sums in the pivot of two runs are those of the machine. A pivot that wraps around may come
before all elements of both runs; nothing is rotated then, and the second half that is merged next
is what the function was called with.
-/
namespace OmniCompiler.Xmp.Sort

open Memory MachineInt

/-- A sum as it is computed; short integers are added as `int`. -/
def ElemType.wrap : ElemType → ℤ → ℤ
  | .short, x | .unsignedShort, x | .int, x => toInt x
  | .unsignedInt, x => x % 2 ^ 32
  | .long, x | .longlong, x => toLL x
  | .unsignedLong, x | .unsignedLonglong, x => x % 2 ^ 64

/-- `(x + y) / 2`. -/
def ElemType.wrapAverage (t : ElemType) (x y : ℤ) : ℤ := (t.wrap (x + y)).tdiv 2

def ElemType.wrapMedian (t : ElemType) (a : List ℤ) : ℤ :=
  if a.length % 2 = 0 then t.wrapAverage (a.getD (a.length / 2) 0) (a.getD (a.length / 2 - 1) 0)
  else a.getD (a.length / 2) 0

/-- `get_rotate_pivot`. -/
def wrapPivot (t : ElemType) (a b : List ℤ) : ℤ :=
  let am := if 0 < a.length then t.wrapMedian a else 0
  let bm := if 0 < b.length then t.wrapMedian b else 0
  if 0 < a.length ∧ 0 < b.length then t.wrapAverage am bm
  else if 0 < a.length then am
  else bm

/-- `two_way_inplace_merge_sort`. -/
def wrapMerge (t : ElemType) (isUp : Bool) : ℕ → List ℤ → ℕ → Except SortError (List ℤ)
  | fuel, a, m =>
    if m = 0 ∨ a.length ≤ m then .ok a
    else if a.length < 32 then .ok (qsort isUp a)
    else
      match fuel with
      | 0 => .error .outOfFuel
      | fuel + 1 =>
        let p := wrapPivot t (a.take m) (a.drop m)
        mergeParts isUp (wrapMerge t isUp fuel) a m (myBsearch isUp p (a.take m))
          (myBsearch isUp p (a.drop m))

/-- The call ends. -/
def Ends (t : ElemType) (isUp : Bool) (a : List ℤ) (m : ℕ) : Prop :=
  ∃ fuel r, wrapMerge t isUp fuel a m = .ok r

/-! ## Calls -/

/-- The calls that `mergeParts` makes. -/
def partCalls (a : List ℤ) (m midA midB : ℕ) : List (List ℤ × ℕ) :=
  if midA = m ∧ midB = a.length - m then []
  else
    let a' := rotateEntries a midA m (midB + m - 1)
    (if 0 < midA ∧ 0 < midB then [(a'.take (midA + midB), midA)] else []) ++
      if midA < m ∧ midB < a.length - m then [(a'.drop (midA + midB), m - midA)] else []

def mergeCalls (t : ElemType) (isUp : Bool) (a : List ℤ) (m : ℕ) : List (List ℤ × ℕ) :=
  if (m = 0 ∨ a.length ≤ m) ∨ a.length < 32 then []
  else
    let p := wrapPivot t (a.take m) (a.drop m)
    partCalls a m (myBsearch isUp p (a.take m)) (myBsearch isUp p (a.drop m))

/-- The second call is made, directly or not, by the first. -/
def Reaches (t : ElemType) (isUp : Bool) : List ℤ × ℕ → List ℤ × ℕ → Prop :=
  Relation.ReflTransGen fun c c' => c' ∈ mergeCalls t isUp c.1 c.2

/-- The runs are split at a pivot that comes before all their elements. -/
def PivotFirst (t : ElemType) (isUp : Bool) (a : List ℤ) (m : ℕ) : Prop :=
  (0 < m ∧ m < a.length ∧ 32 ≤ a.length) ∧
    ∀ x ∈ a, ¬Before isUp x (wrapPivot t (a.take m) (a.drop m))

instance (t : ElemType) (isUp : Bool) (a : List ℤ) (m : ℕ) : Decidable (PivotFirst t isUp a m) :=
  inferInstanceAs (Decidable (_ ∧ _))

section Calls

variable {t : ElemType} {isUp : Bool} {a : List ℤ} {m : ℕ}

theorem mergeParts_ok_iff {merge : List ℤ → ℕ → Except SortError (List ℤ)} {midA midB : ℕ} :
    (∃ r, mergeParts isUp merge a m midA midB = .ok r) ↔
      ∀ c ∈ partCalls a m midA midB, ∃ r, merge c.1 c.2 = .ok r := by
  unfold mergeParts partCalls
  split_ifs with hall hleft hright hright
  · simp
  · cases hl : merge ((rotateEntries a midA m (midB + m - 1)).take (midA + midB)) midA with
    | error e => simp [hl, bind, Except.bind]
    | ok left =>
      cases hr : merge ((rotateEntries a midA m (midB + m - 1)).drop (midA + midB)) (m - midA) with
      | error e => simp [hl, hr, bind, Except.bind]
      | ok right => simp [hl, hr, bind, Except.bind]
  · cases hl : merge ((rotateEntries a midA m (midB + m - 1)).take (midA + midB)) midA with
    | error e => simp [hl, bind, Except.bind]
    | ok left => simp [hl, bind, Except.bind]
  · cases hr : merge ((rotateEntries a midA m (midB + m - 1)).drop (midA + midB)) (m - midA) with
    | error e => simp [hr, bind, Except.bind]
    | ok right => simp [hr, bind, Except.bind]
  · simp [bind, Except.bind]

theorem wrapMerge_succ_ok_iff (fuel : ℕ) : (∃ r, wrapMerge t isUp (fuel + 1) a m = .ok r) ↔
    ∀ c ∈ mergeCalls t isUp a m, ∃ r, wrapMerge t isUp fuel c.1 c.2 = .ok r := by
  rw [wrapMerge, mergeCalls]
  by_cases hends : m = 0 ∨ a.length ≤ m
  · simp [hends]
  by_cases hsmall : a.length < 32
  · simp [hends, hsmall]
  rw [if_neg hends, if_neg hsmall, if_neg (not_or.mpr ⟨hends, hsmall⟩)]
  exact mergeParts_ok_iff

theorem mergeCalls_of_zero (h : ∃ r, wrapMerge t isUp 0 a m = .ok r) :
    mergeCalls t isUp a m = [] := by
  obtain ⟨r, hr⟩ := h
  rw [wrapMerge] at hr
  rw [mergeCalls]
  split_ifs at hr with hends hsmall
  · rw [if_pos (Or.inl hends)]
  · rw [if_pos (Or.inr hsmall)]

/-! ## A pivot before all elements -/

theorem myBsearch_eq_zero {p : ℤ} (h : 0 < compareFunc isUp (a.getD 0 0) p) :
    myBsearch isUp p a = 0 := by
  rw [myBsearch, if_pos h]

theorem PivotFirst.mem_mergeCalls (h : PivotFirst t isUp a m) : (a, m) ∈ mergeCalls t isUp a m := by
  obtain ⟨⟨hm0, hm, hlong⟩, hfirst⟩ := h
  have hA : myBsearch isUp (wrapPivot t (a.take m) (a.drop m)) (a.take m) = 0 := by
    apply myBsearch_eq_zero
    rw [compareFunc_pos, getD_take a hm0]
    exact hfirst _ (getD_mem (by omega))
  have hB : myBsearch isUp (wrapPivot t (a.take m) (a.drop m)) (a.drop m) = 0 := by
    apply myBsearch_eq_zero
    rw [compareFunc_pos, getD_drop, Nat.add_zero]
    exact hfirst _ (getD_mem hm)
  have hrot : rotateEntries a 0 m (0 + m - 1) = a := by
    rw [rotate_parts hm.le (Nat.zero_le m) (Nat.zero_le _)]
    simp
  rw [mergeCalls, if_neg (by omega)]
  dsimp only
  rw [hA, hB, partCalls, if_neg (by omega)]
  dsimp only
  rw [hrot, if_neg (by omega), if_pos (by omega)]
  simp

theorem PivotFirst.not_ok (h : PivotFirst t isUp a m) (fuel : ℕ) :
    ¬∃ r, wrapMerge t isUp fuel a m = .ok r := by
  induction fuel with
  | zero =>
    intro hok
    have hmem := h.mem_mergeCalls
    rw [mergeCalls_of_zero hok] at hmem
    cases hmem
  | succ fuel ih =>
    intro hok
    exact ih ((wrapMerge_succ_ok_iff fuel).mp hok _ h.mem_mergeCalls)

theorem not_ok_of_reaches {c c' : List ℤ × ℕ} (hreach : Reaches t isUp c c')
    (h : ∀ fuel, ¬∃ r, wrapMerge t isUp fuel c'.1 c'.2 = .ok r) (fuel : ℕ) :
    ¬∃ r, wrapMerge t isUp fuel c.1 c.2 = .ok r := by
  induction hreach using Relation.ReflTransGen.head_induction_on generalizing fuel with
  | refl => exact h fuel
  | head hcall _ ih =>
    intro hok
    cases fuel with
    | zero =>
      rw [mergeCalls_of_zero hok] at hcall
      cases hcall
    | succ fuel => exact ih fuel ((wrapMerge_succ_ok_iff fuel).mp hok _ hcall)

/-! ## Shorter runs -/

structure Shorter (isUp : Bool) (a b : List ℤ) (k : ℕ) : Prop where
  lt : b.length < a.length
  left : Sorted isUp (b.take k)
  right : Sorted isUp (b.drop k)
  mem : ∀ x ∈ b, x ∈ a

theorem shorter_of_mem_partCalls {midA midB : ℕ} (hm : m ≤ a.length) (hA : Sorted isUp (a.take m))
    (hB : Sorted isUp (a.drop m)) (hmidA : midA ≤ m) (hmidB : midB ≤ a.length - m)
    (hpos : 0 < midA ∨ 0 < midB) {c : List ℤ × ℕ} (hc : c ∈ partCalls a m midA midB) :
    Shorter isUp a c.1 c.2 := by
  have hlenA : (a.take m).length = m := by
    rw [List.length_take]
    omega
  have hlenB : (a.drop m).length = a.length - m := List.length_drop
  rw [partCalls] at hc
  by_cases hall : midA = m ∧ midB = a.length - m
  · rw [if_pos hall] at hc
    cases hc
  rw [if_neg hall] at hc
  dsimp only at hc
  rw [rotate_parts hm hmidA (by omega)] at hc
  have hlx : ((a.take m).take midA).length = midA := by
    rw [List.length_take]
    omega
  have hly : ((a.drop m).take midB).length = midB := by
    rw [List.length_take]
    omega
  have hlu : ((a.take m).drop midA).length = m - midA := by
    rw [List.length_drop]
    omega
  have hlv : ((a.drop m).drop midB).length = a.length - m - midB := by
    rw [List.length_drop]
    omega
  have hfirst : midA + midB = ((a.take m).take midA ++ (a.drop m).take midB).length := by
    rw [List.length_append]
    omega
  rw [hfirst, List.take_left, List.drop_left] at hc
  rcases List.mem_append.mp hc with hc | hc
  · split_ifs at hc with hboth
    · obtain rfl := List.mem_singleton.mp hc
      refine ⟨?_, ?_, ?_, ?_⟩
      · rw [List.length_append]
        omega
      · rw [List.take_left' hlx]
        exact hA.take midA
      · rw [List.drop_left' hlx]
        exact hB.take midB
      · intro x hx
        rcases List.mem_append.mp hx with hx | hx
        · exact List.mem_of_mem_take (List.mem_of_mem_take hx)
        · exact List.mem_of_mem_drop (List.mem_of_mem_take hx)
    · cases hc
  · split_ifs at hc with hboth
    · obtain rfl := List.mem_singleton.mp hc
      refine ⟨?_, ?_, ?_, ?_⟩
      · rw [List.length_append]
        omega
      · rw [List.take_left' hlu]
        exact hA.drop midA
      · rw [List.drop_left' hlu]
        exact hB.drop midB
      · intro x hx
        rcases List.mem_append.mp hx with hx | hx
        · exact List.mem_of_mem_take (List.mem_of_mem_drop hx)
        · exact List.mem_of_mem_drop (List.mem_of_mem_drop hx)
    · cases hc

theorem shorter_of_mem_mergeCalls (hA : Sorted isUp (a.take m)) (hB : Sorted isUp (a.drop m))
    (hfirst : ¬PivotFirst t isUp a m) {c : List ℤ × ℕ} (hc : c ∈ mergeCalls t isUp a m) :
    Shorter isUp a c.1 c.2 := by
  rw [mergeCalls] at hc
  split_ifs at hc with hends
  · cases hc
  obtain ⟨hends, hlong⟩ := not_or.mp hends
  have hlenA : (a.take m).length = m := by
    rw [List.length_take]
    omega
  have hlenB : (a.drop m).length = a.length - m := List.length_drop
  have hmidA := @splitAt_myBsearch isUp (wrapPivot t (a.take m) (a.drop m)) _ hA
    (List.length_pos_iff.mp (by omega))
  have hmidB := @splitAt_myBsearch isUp (wrapPivot t (a.take m) (a.drop m)) _ hB
    (List.length_pos_iff.mp (by omega))
  have hleA := hmidA.le
  have hleB := hmidB.le
  refine shorter_of_mem_partCalls (by omega) hA hB (by omega) (by omega) ?_ hc
  by_contra hnone
  obtain ⟨hA0, hB0⟩ : _ ∧ _ := not_or.mp hnone
  refine hfirst ⟨⟨by omega, by omega, by omega⟩, fun x hx => ?_⟩
  rw [← List.take_append_drop m a] at hx
  rcases List.mem_append.mp hx with hx | hx
  · exact fun hb => hA0 (hmidA.pos ⟨x, hx, hb⟩)
  · exact fun hb => hB0 (hmidB.pos ⟨x, hx, hb⟩)

theorem wrapMerge_ok (fuel : ℕ) (hfuel : a.length ≤ fuel) (hA : Sorted isUp (a.take m))
    (hB : Sorted isUp (a.drop m))
    (h : ∀ b k, Reaches t isUp (a, m) (b, k) → ¬PivotFirst t isUp b k) :
    ∃ r, wrapMerge t isUp fuel a m = .ok r := by
  induction fuel generalizing a m with
  | zero => exact ⟨a, by rw [wrapMerge, if_pos (Or.inr (by omega))]⟩
  | succ fuel ih =>
    rw [wrapMerge_succ_ok_iff]
    intro c hc
    obtain ⟨hlt, hleft, hright, -⟩ :=
      shorter_of_mem_mergeCalls hA hB (h a m Relation.ReflTransGen.refl) hc
    exact ih (by omega) hleft hright fun b k hreach => h b k (Relation.ReflTransGen.head hc hreach)

/-! ## Sums that do not wrap around -/

theorem wrap_of_inRange {x : ℤ} (h : t.InRange x) : t.wrap x = x := by
  cases t with
  | short => exact toInt_of_inInt h
  | unsignedShort => exact toInt_of_inInt h
  | int => exact toInt_of_inInt h
  | unsignedInt => exact Int.emod_eq_of_lt h.1 h.2
  | long => exact toLL_of_inLL h
  | unsignedLong => exact Int.emod_eq_of_lt h.1 h.2
  | longlong => exact toLL_of_inLL h
  | unsignedLonglong => exact Int.emod_eq_of_lt h.1 h.2

theorem inRange_of_between {x y z : ℤ} (hx : t.InRange x) (hz : t.InRange z) (hxy : x ≤ y)
    (hyz : y ≤ z) : t.InRange y := by
  cases t
  all_goals
    simp only [ElemType.InRange, InInt, InLL] at hx hz ⊢
    omega

/-- Between an element and another, or the same, of a run. -/
def Within (a : List ℤ) (z : ℤ) : Prop := ∃ x ∈ a, ∃ y ∈ a, x ≤ z ∧ z ≤ y

theorem Within.inRange {b : List ℤ} {z w : ℤ} (hsum : ∀ x ∈ a, ∀ y ∈ b, t.InRange (x + y))
    (hz : Within a z) (hw : Within b w) : t.InRange (z + w) := by
  obtain ⟨x, hx, y, hy, hxz, hzy⟩ := hz
  obtain ⟨x', hx', y', hy', hxw, hwy⟩ := hw
  exact inRange_of_between (hsum x hx x' hx') (hsum y hy y' hy') (by omega) (by omega)

theorem average_of_inRange {x y : ℤ} (h : t.InRange (x + y)) :
    t.average x y = .ok (t.wrapAverage x y) := by
  rw [ElemType.average, if_pos h, ElemType.wrapAverage, wrap_of_inRange h]

theorem median_of_inRange (hpos : 0 < a.length) (hsum : ∀ x ∈ a, ∀ y ∈ a, t.InRange (x + y)) :
    t.median a = .ok (t.wrapMedian a) ∧ Within a (t.wrapMedian a) := by
  rw [ElemType.median, ElemType.wrapMedian]
  have hmid : a.getD (a.length / 2) 0 ∈ a := getD_mem (by omega)
  split_ifs with heven
  · have hprev : a.getD (a.length / 2 - 1) 0 ∈ a := getD_mem (by omega)
    have hav := average_of_inRange (hsum _ hmid _ hprev)
    obtain ⟨hmin, hmax⟩ := average_spec hav
    refine ⟨hav, ?_⟩
    rcases le_total (a.getD (a.length / 2) 0) (a.getD (a.length / 2 - 1) 0) with hle | hle
    · exact ⟨_, hmid, _, hprev, by omega, by omega⟩
    · exact ⟨_, hprev, _, hmid, by omega, by omega⟩
  · exact ⟨rfl, _, hmid, _, hmid, le_rfl, le_rfl⟩

theorem not_pivotFirst_of_inRange (hsum : ∀ x ∈ a, ∀ y ∈ a, t.InRange (x + y)) :
    ¬PivotFirst t isUp a m := by
  intro ⟨⟨hm0, hm, _⟩, hfirst⟩
  have hA : 0 < (a.take m).length := by
    rw [List.length_take]
    omega
  have hB : 0 < (a.drop m).length := by
    rw [List.length_drop]
    omega
  have htake : ∀ x ∈ a.take m, x ∈ a := fun x hx => List.mem_of_mem_take hx
  have hdrop : ∀ x ∈ a.drop m, x ∈ a := fun x hx => List.mem_of_mem_drop hx
  obtain ⟨ham, hwa⟩ := median_of_inRange hA fun x hx y hy => hsum x (htake x hx) y (htake y hy)
  obtain ⟨hbm, hwb⟩ := median_of_inRange hB fun x hx y hy => hsum x (hdrop x hx) y (hdrop y hy)
  have hav := average_of_inRange
    (hwa.inRange (fun x hx y hy => hsum x (htake x hx) y (hdrop y hy)) hwb)
  have hpivot : getRotatePivot t (a.take m) (a.drop m) =
      .ok (wrapPivot t (a.take m) (a.drop m)) := by
    simp only [getRotatePivot, wrapPivot, hA, hB, if_true, and_self, ham, hbm, bind, Except.bind,
      hav]
  rcases getRotatePivot_spec t isUp hA hB with hp | ⟨p, hp, hbefore⟩
  · rw [hpivot] at hp
    cases hp
  · rw [hpivot, Except.ok.injEq] at hp
    subst hp
    rcases hbefore with ⟨x, hx, hb⟩ | ⟨x, hx, hb⟩
    · exact hfirst x (htake x hx) hb
    · exact hfirst x (hdrop x hx) hb

theorem not_pivotFirst_of_reaches {b : List ℤ} {k : ℕ} (hA : Sorted isUp (a.take m))
    (hB : Sorted isUp (a.drop m)) (hsum : ∀ x ∈ a, ∀ y ∈ a, t.InRange (x + y))
    (hreach : Reaches t isUp (a, m) (b, k)) : ¬PivotFirst t isUp b k := by
  obtain ⟨c, hc⟩ : ∃ c : List ℤ × ℕ, c = (a, m) := ⟨_, rfl⟩
  rw [← hc] at hreach
  induction hreach using Relation.ReflTransGen.head_induction_on generalizing a m with
  | refl =>
    cases hc
    exact not_pivotFirst_of_inRange hsum
  | @head c c' hcall _ ih =>
    subst hc
    obtain ⟨-, hleft, hright, hmem⟩ :=
      shorter_of_mem_mergeCalls hA hB (not_pivotFirst_of_inRange hsum) hcall
    exact ih hleft hright (fun x hx y hy => hsum x (hmem x hx) y (hmem y hy)) rfl

end Calls

/-- The merge of two sorted runs ends unless it comes to a pivot before all elements. -/
theorem wrapMerge_ends_iff {t : ElemType} {isUp : Bool} {a : List ℤ} {m : ℕ}
    (hA : Sorted isUp (a.take m)) (hB : Sorted isUp (a.drop m)) :
    Ends t isUp a m ↔ ∀ b k, Reaches t isUp (a, m) (b, k) → ¬PivotFirst t isUp b k := by
  constructor
  · intro ⟨fuel, hok⟩ b k hreach hfirst
    exact not_ok_of_reaches hreach hfirst.not_ok fuel hok
  · intro h
    exact ⟨a.length, wrapMerge_ok a.length le_rfl hA hB h⟩

instance (isUp : Bool) (a : List ℤ) : Decidable (Sorted isUp a) :=
  inferInstanceAs (Decidable (a.Pairwise (Before isUp)))

theorem wrapMerge_ends_replicate : Ends .int true (List.replicate 16 2 ++ List.replicate 16 1) 16 :=
  (wrapMerge_ends_iff (by decide) (by decide)).mpr fun _ _ hreach =>
    not_pivotFirst_of_reaches (by decide) (by decide) (by decide) hreach

/-- The sum of two elements is 0, and so is the pivot. -/
theorem wrapMerge_endless : Sorted true ((List.replicate 32 (2 ^ 31)).take 16) ∧
    Sorted true ((List.replicate 32 (2 ^ 31)).drop 16) ∧
    ¬Ends .unsignedInt true (List.replicate 32 (2 ^ 31)) 16 := by
  have hfirst : PivotFirst .unsignedInt true (List.replicate 32 (2 ^ 31)) 16 := by decide
  exact ⟨by decide, by decide, fun ⟨fuel, hok⟩ => hfirst.not_ok fuel hok⟩

end OmniCompiler.Xmp.Sort

import OmniCompiler.Arithmetic.Alignment
import OmniCompiler.Arithmetic.MixedRadix

/-!
# Boxes of digits

Counting through the numbers below a product of sizes counts through the digits with the first one
varying fastest. The numbers whose digits lie in given sets form a product in the same order.
-/
namespace OmniCompiler.MixedRadix

open OmniCompiler.Alignment

/-- The digits of `r`, each taken with a remainder. -/
def residues : ℕ → List ℕ → ℕ → List ℕ
  | _, [], _ => []
  | m, s :: sizes, r => r / m % s :: residues (m * s) sizes r

@[simp] theorem length_residues (m : ℕ) (sizes : List ℕ) (r : ℕ) :
    (residues m sizes r).length = sizes.length := by
  induction sizes generalizing m with
  | nil => rfl
  | cons s sizes ih => simp [residues, ih]

theorem residues_mul_add {s x : ℕ} (hx : x < s) (m : ℕ) (sizes : List ℕ) (q : ℕ) :
    residues (s * m) sizes (q * s + x) = residues m sizes q := by
  induction sizes generalizing m with
  | nil => rfl
  | cons t sizes ih =>
    have hdiv : (q * s + x) / (s * m) = q / m := by
      rw [← Nat.div_div_eq_div_mul, Nat.add_comm, Nat.add_mul_div_right _ _ (by omega),
        Nat.div_eq_of_lt hx, zero_add]
    rw [residues, residues, hdiv, mul_assoc, ih]

theorem residues_cons {s x : ℕ} (hx : x < s) (sizes : List ℕ) (q : ℕ) :
    residues 1 (s :: sizes) (q * s + x) = x :: residues 1 sizes q := by
  have h := residues_mul_add hx 1 sizes q
  rw [mul_one] at h
  rw [residues, one_mul, h, Nat.div_one, Nat.add_comm, Nat.add_mul_mod_self_right,
    Nat.mod_eq_of_lt hx]

theorem range_mul (a b : ℕ) :
    List.range (a * b) = (List.range b).flatMap fun q => (List.range a).map fun x => q * a + x := by
  induction b with
  | zero => simp
  | succ b ih =>
    rw [Nat.mul_succ, List.range_add, ih, List.range_succ, List.flatMap_append]
    simp [mul_comm]

theorem map_residues_range (sizes : List ℕ) :
    (List.range sizes.prod).map (residues 1 sizes) = firstFastest (sizes.map List.range) := by
  induction sizes with
  | nil => rfl
  | cons s sizes ih =>
    rw [List.prod_cons, range_mul, List.map_flatMap, List.map_cons, firstFastest, ← ih,
      List.flatMap_map]
    apply List.flatMap_congr
    intro q _
    rw [List.map_map]
    apply List.map_congr_left
    intro x hx
    exact residues_cons (List.mem_range.mp hx) sizes q

theorem inRange_residues {sizes : List ℕ} {r : ℕ} (hr : r < sizes.prod) :
    InRange (residues 1 sizes r) sizes := by
  have hm : residues 1 sizes r ∈ firstFastest (sizes.map List.range) := by
    rw [← map_residues_range]
    exact List.mem_map_of_mem (List.mem_range.mpr hr)
  simpa [InRange, List.forall₂_map_right_iff] using mem_firstFastest.mp hm

theorem value_mul (a m : ℕ) (sizes cs : List ℕ) :
    value (a * m) sizes cs = a * value m sizes cs := by
  induction sizes generalizing m cs with
  | nil => simp [value]
  | cons s sizes ih =>
    cases cs with
    | nil => simp [value]
    | cons c cs =>
      rw [value, value, mul_assoc a m s, ih]
      ring

theorem value_cons (s c : ℕ) (sizes cs : List ℕ) :
    value 1 (s :: sizes) (c :: cs) = value 1 sizes cs * s + c := by
  have h := value_mul s 1 sizes cs
  rw [mul_one] at h
  rw [value, one_mul, h]
  ring

theorem residues_value {sizes cs : List ℕ} (h : InRange cs sizes) :
    residues 1 sizes (value 1 sizes cs) = cs := by
  induction h with
  | nil => rfl
  | @cons c s cs sizes hc _ ih => rw [value_cons, residues_cons hc, ih]

theorem value_residues {sizes : List ℕ} {r : ℕ} (hr : r < sizes.prod) :
    value 1 sizes (residues 1 sizes r) = r := by
  induction sizes generalizing r with
  | nil =>
    obtain rfl : r = 0 := by simpa using hr
    rfl
  | cons s sizes ih =>
    rw [List.prod_cons] at hr
    have hs : 0 < s := Nat.pos_of_mul_pos_right (Nat.zero_lt_of_lt hr)
    have hq : r / s < sizes.prod := Nat.div_lt_of_lt_mul hr
    have hdm := Nat.div_add_mod' r s
    rw [← hdm, residues_cons (Nat.mod_lt r hs), value_cons, ih hq]

theorem residues_inj {sizes : List ℕ} {r r' : ℕ} (hr : r < sizes.prod) (hr' : r' < sizes.prod)
    (h : residues 1 sizes r = residues 1 sizes r') : r = r' := by
  rw [← value_residues hr, h, value_residues hr']

theorem value_inj {sizes cs cs' : List ℕ} (h : InRange cs sizes) (h' : InRange cs' sizes)
    (he : value 1 sizes cs = value 1 sizes cs') : cs = cs' := by
  rw [← residues_value h, he, residues_value h']

end OmniCompiler.MixedRadix

namespace OmniCompiler.Alignment

variable {α : Type*}

theorem length_firstFastest (ls : List (List α)) :
    (firstFastest ls).length = (ls.map List.length).prod := by
  induction ls with
  | nil => rfl
  | cons l ls ih => simp [firstFastest, List.length_flatMap, ih, mul_comm]

theorem nodup_firstFastest {ls : List (List α)} (h : ∀ l ∈ ls, l.Nodup) :
    (firstFastest ls).Nodup := by
  induction ls with
  | nil => exact List.nodup_singleton []
  | cons l ls ih =>
    have hl : l.Nodup := h l (by simp)
    rw [firstFastest, List.nodup_flatMap]
    refine ⟨fun xs _ => hl.map fun x y hxy => (List.cons.inj hxy).1, ?_⟩
    refine (ih fun l' hl' => h l' (by simp [hl'])).imp ?_
    intro xs ys hne zs hzs hzs'
    obtain ⟨x, -, rfl⟩ := List.mem_map.mp hzs
    obtain ⟨y, -, hxy⟩ := List.mem_map.mp hzs'
    exact hne (List.cons.inj hxy).2.symm

def passes (ps : List (α → Bool)) (xs : List α) : Bool := (ps.zip xs).all fun p => p.1 p.2

theorem filter_map_cons (p : α → Bool) (ps : List (α → Bool)) (l : List α) (xs : List α) :
    (l.map (· :: xs)).filter (passes (p :: ps)) =
      if passes ps xs then (l.filter p).map (· :: xs) else [] := by
  rw [List.filter_map]
  cases hx : passes ps xs with
  | false => simp_all [passes, Function.comp_def]
  | true =>
    rw [if_pos rfl]
    congr 1
    apply List.filter_congr
    intro x _
    simp_all [passes]

theorem filter_firstFastest {ps : List (α → Bool)} {ls : List (List α)}
    (h : ps.length = ls.length) :
    (firstFastest ls).filter (passes ps) = firstFastest (List.zipWith List.filter ps ls) := by
  induction ls generalizing ps with
  | nil =>
    rw [List.length_nil, List.length_eq_zero_iff] at h
    subst h
    rfl
  | cons l ls ih =>
    obtain ⟨p, ps, rfl⟩ := List.exists_cons_of_length_eq_add_one h
    have hlen : ps.length = ls.length := by simpa using h
    rw [List.zipWith_cons_cons, firstFastest, firstFastest, ← ih hlen]
    induction firstFastest ls with
    | nil => rfl
    | cons xs L ihL =>
      rw [List.flatMap_cons, List.filter_append, ihL, filter_map_cons]
      cases hx : passes ps xs with
      | false => rw [List.filter_cons_of_neg (by simp [hx])]; simp
      | true => rw [List.filter_cons_of_pos hx]; simp

section Positions

variable [BEq α] [LawfulBEq α]

theorem idxOf_map_of_inj {β : Type*} [BEq β] [LawfulBEq β] (f : α → β) {l : List α} {a : α}
    (h : ∀ b ∈ l, f b = f a → b = a) : (l.map f).idxOf (f a) = l.idxOf a := by
  induction l with
  | nil => rfl
  | cons b l ih =>
    have ih' := ih fun c hc => h c (by simp [hc])
    by_cases hb : b = a
    · simp [hb]
    · have hfb : f b ≠ f a := fun e => hb (h b (by simp) e)
      rw [List.map_cons, List.idxOf_cons_ne _ hfb, List.idxOf_cons_ne _ hb, ih']

theorem idxOf_flatMap_cons {L : List (List α)} {l : List α} {x : α} {xs : List α} (hx : x ∈ l)
    (hxs : xs ∈ L) : (L.flatMap fun ys => l.map (· :: ys)).idxOf (x :: xs) =
      L.idxOf xs * l.length + l.idxOf x := by
  induction L with
  | nil => simp at hxs
  | cons ys L ih =>
    rw [List.flatMap_cons]
    by_cases hy : ys = xs
    · subst hy
      have hmem : x :: ys ∈ l.map (· :: ys) := List.mem_map_of_mem hx
      have hidx := idxOf_map_of_inj (fun y => y :: ys) (l := l) (a := x) (by simp)
      rw [List.idxOf_append_of_mem hmem, List.idxOf_cons_self, zero_mul, zero_add]
      exact hidx
    · have hnot : x :: xs ∉ l.map (· :: ys) := by
        simp [hy]
      rw [List.idxOf_append_of_notMem hnot, List.length_map, List.idxOf_cons_ne _ hy,
        ih (by simpa [Ne.symm hy] using hxs), Nat.succ_mul]
      ring

/-- The place of a choice among all choices has the places in the factors as digits. -/
theorem idxOf_firstFastest {ls : List (List α)} {xs : List α}
    (h : List.Forall₂ (fun x l => x ∈ l) xs ls) :
    (firstFastest ls).idxOf xs =
      MixedRadix.value 1 (ls.map List.length) (List.zipWith (fun x l => l.idxOf x) xs ls) := by
  induction h with
  | nil => rfl
  | @cons x l xs ls hx hxs ih =>
    rw [firstFastest, idxOf_flatMap_cons hx (mem_firstFastest.mpr hxs), ih, List.map_cons,
      List.zipWith_cons_cons, MixedRadix.value_cons]

end Positions

end OmniCompiler.Alignment

import OmniCompiler.Arithmetic.MachineInt
import OmniCompiler.Memory.ElementOrder

/-!
# Axes of a coindexed section (`xmpf_coarray_put.c`, `xmpf_coarray_get.c`, `xmpf_coarray_getsub.c`)

The arrays `skip[]`, `skip_rhs[]` and `count[]` are a list of axes, `dst` being the
distance at the side that is written and `src` at the side that is read. Contiguous
axes are collapsed into longer elements; sizes are of type `int`, and a product
that does not fit leaves nothing to rely on.
-/
namespace OmniCompiler.Xmpf

open Memory MachineInt

/-- The recursion over the contiguous axes: the length of a vector and the axes that remain. -/
def collapse : ℕ → List Axis → Option (ℕ × List Axis)
  | bytes, [] => some (bytes, [])
  | bytes, a :: axes =>
    if (bytes : ℤ) = a.dst ∧ (bytes : ℤ) = a.src then
      (cnat (bytes * a.count)).bind fun bytes => collapse bytes axes
    else some (bytes, a :: axes)

/-- Number of axes, from the first one, along which the elements at the side with distances `skip`
are adjacent. -/
def contiguity (skip : Axis → ℤ) : ℕ → List Axis → Option ℕ
  | _, [] => some 0
  | size, a :: axes =>
    if (size : ℤ) = skip a then
      (cnat (size * a.count)).bind fun size => (contiguity skip size axes).map (· + 1)
    else some 0

variable {β : Type*} {bytes b : ℕ} {axes rest : List Axis}

theorem cint_zero_mul (x : ℤ) : cint ((0 : ℕ) * x) = some 0 := by
  rw [Nat.cast_zero, zero_mul]
  rfl

theorem inInt_mul {c i : ℕ} {d : ℤ} (hi : i < c) (h : InInt ((c - 1 : ℤ) * d)) : InInt (i * d) := by
  have hc : ((c - 1 : ℕ) : ℤ) = c - 1 := by omega
  rw [← hc, mul_comm] at h
  rw [mul_comm]
  exact inInt_mul_of_le (show i ≤ c - 1 by omega) h

theorem axis_eq {a : Axis} {n : ℕ} (h : (n : ℤ) = a.dst ∧ (n : ℤ) = a.src) :
    a = ⟨a.count, n, n⟩ := by
  obtain ⟨c, d, s⟩ := a
  obtain ⟨rfl, rfl⟩ := h
  rfl

theorem transfers_collapse (h : collapse bytes axes = some (b, rest)) (src mem : ℤ → β) (d s : ℤ) :
    transfers bytes src mem (visited axes.reverse d s) =
      transfers b src mem (visited rest.reverse d s) := by
  induction axes generalizing bytes with
  | nil =>
    cases h
    rfl
  | cons a axes ih =>
    rw [collapse] at h
    split_ifs at h with hab
    · obtain ⟨x, hx, hrest⟩ := Option.bind_eq_some_iff.mp h
      obtain ⟨-, rfl⟩ := cnat_eq_some.mp hx
      have ha := axis_eq hab
      rw [← ih hrest, List.reverse_cons, ha]
      exact transfers_merge bytes a.count axes.reverse d s src mem
    · cases h
      rfl

theorem elements_collapse (h : collapse bytes axes = some (b, rest)) :
    bytes * elements axes = b * elements rest := by
  induction axes generalizing bytes with
  | nil =>
    cases h
    rfl
  | cons a axes ih =>
    rw [collapse] at h
    split_ifs at h with hab
    · obtain ⟨x, hx, hrest⟩ := Option.bind_eq_some_iff.mp h
      obtain ⟨-, rfl⟩ := cnat_eq_some.mp hx
      rw [← ih hrest, elements_cons, mul_assoc]
    · cases h
      rfl

theorem sectionDisjoint_collapse (h : collapse bytes axes = some (b, rest))
    (hpos : 0 < bytes * elements axes) (hd : SectionDisjoint bytes axes) :
    SectionDisjoint b rest := by
  induction axes generalizing bytes with
  | nil =>
    cases h
    exact hd
  | cons a axes ih =>
    rw [collapse] at h
    split_ifs at h with hab
    · obtain ⟨x, hx, hrest⟩ := Option.bind_eq_some_iff.mp h
      obtain ⟨-, rfl⟩ := cnat_eq_some.mp hx
      rw [elements_cons, ← mul_assoc] at hpos
      have ha := axis_eq hab
      have hn := Nat.pos_of_mul_pos_right (Nat.pos_of_mul_pos_right hpos)
      have hc := Nat.pos_of_mul_pos_left (Nat.pos_of_mul_pos_right hpos)
      rw [ha] at hd
      exact ih hrest hpos (hd.merge hn hc)
    · cases h
      exact hd

theorem dense_of_contiguity {skip : Axis → ℤ} {size n k : ℕ} {inner : List Axis}
    (h : contiguity skip size axes = some k) (hsize : size = n * elements inner)
    (hinner : Dense skip n inner) : Dense skip n ((axes.take k).reverse ++ inner) := by
  induction axes generalizing size k inner with
  | nil => simpa using hinner
  | cons a axes ih =>
    rw [contiguity] at h
    split_ifs at h with ha
    · obtain ⟨x, hx, hrest⟩ := Option.bind_eq_some_iff.mp h
      obtain ⟨-, rfl⟩ := cnat_eq_some.mp hx
      obtain ⟨j, hj, rfl⟩ := Option.map_eq_some_iff.mp hrest
      rw [List.take_succ_cons, List.reverse_cons, List.append_assoc, List.singleton_append]
      apply ih hj
      · rw [elements_cons, hsize]
        ring
      · exact ⟨by rw [← ha, hsize], hinner⟩
    · cases h
      simpa using hinner

theorem contiguity_le {skip : Axis → ℤ} {size k : ℕ} (h : contiguity skip size axes = some k) :
    k ≤ axes.length := by
  induction axes generalizing size k with
  | nil =>
    cases h
    rfl
  | cons a axes ih =>
    rw [contiguity] at h
    split_ifs at h with ha
    · obtain ⟨x, -, hrest⟩ := Option.bind_eq_some_iff.mp h
      obtain ⟨j, hj, rfl⟩ := Option.map_eq_some_iff.mp hrest
      exact Nat.succ_le_succ (ih hj)
    · cases h
      exact Nat.zero_le _

theorem contiguity_pos {skip : Axis → ℤ} {a : Axis} {k : ℕ} (ha : (bytes : ℤ) = skip a)
    (h : contiguity skip bytes (a :: axes) = some k) : 0 < k := by
  rw [contiguity, if_pos ha] at h
  obtain ⟨x, -, hrest⟩ := Option.bind_eq_some_iff.mp h
  obtain ⟨j, -, rfl⟩ := Option.map_eq_some_iff.mp hrest
  exact Nat.succ_pos j

end OmniCompiler.Xmpf

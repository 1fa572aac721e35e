import OmniCompiler.Xmp.NodesNamed

/-!
# Tasks on a part of a node set (`xmp_nodes.c`)

A task without a communicator of its own tests its reference as it is written; the node set of a
task with one tests the reference that `_XMP_validate_nodes_ref` has made of it.
-/
namespace OmniCompiler.Xmp

open MixedRadix

namespace NodesRef

/-- The turn of the loop of `_XMP_exec_task_NODES_PART_nocomm` for one dimension. -/
def includesNocomm (ref : NodesRef) (rank : ℕ) : Bool :=
  if ref.shrink then true
  else
    let me : ℤ := rank + 1
    if me < ref.lower ∨ ref.upper < me then false
    else if (me - ref.lower).tmod ref.stride ≠ 0 then false
    else true

/-- The nodes a triplet stands for, counted from one. -/
def Elem (ref : NodesRef) (x : ℤ) : Prop :=
  ∃ k : ℕ, x = ref.lower + ref.stride * k ∧ if 0 < ref.stride then x ≤ ref.upper else ref.upper ≤ x

end NodesRef

namespace NodesDesc

def execTaskNodesPartNocomm (refNodes : NodesDesc) (isMember : Bool) (commRank : ℕ)
    (refs : List NodesRef) : Bool :=
  if isMember then
    (refs.zip (refNodes.infoRank commRank)).all fun d => d.1.includesNocomm d.2
  else false

/-- `is_member` in `_XMP_init_nodes_struct_NODES_NAMED`. -/
def namedIsMember (refNodes : NodesDesc) (isRefMember : Bool) (commRank : ℕ)
    (refs : List NodesRef) : Except String Bool :=
  if isRefMember then do
    let refs' ← validateRefs refNodes.sizes refs
    .ok (refNodes.isMember refs' commRank)
  else .ok false

end NodesDesc

namespace NodesRef

theorem elem_iff_of_pos {lower upper stride : ℤ} (b : Bool) (hs : 0 < stride) (x : ℤ) :
    (⟨b, lower, upper, stride⟩ : NodesRef).Elem x ↔
      ∃ k : ℕ, x = lower + stride * k ∧ x ≤ upper := by
  simp only [Elem, if_pos hs]

theorem elem_iff_of_nonpos {lower upper stride : ℤ} (b : Bool) (hs : ¬ 0 < stride) (x : ℤ) :
    (⟨b, lower, upper, stride⟩ : NodesRef).Elem x ↔
      ∃ k : ℕ, x = lower + stride * k ∧ upper ≤ x := by
  simp only [Elem, if_neg hs]

theorem check_validateNodesRef {lower upper stride : ℤ} {size : ℕ} {l u s : ℤ}
    (h : validateNodesRef lower upper stride size = .ok (l, u, s)) (x : ℕ) :
    checkNodesRefInclusion l u s x = true ↔
      (⟨false, lower, upper, stride⟩ : NodesRef).Elem (x + 1) := by
  obtain ⟨L, S, q, hl, hst, hu, hS, -⟩ := (validateNodesRef_ok h).1.exists_nat
  have hinc := @includes_iff ⟨false, l, u, s⟩ L S q rfl hl hst hu hS x
  have hS' : (0 : ℤ) < S := by omega
  simp only [includes, Bool.false_or] at hinc hl hst hu
  rw [hinc]
  unfold validateNodesRef at h
  simp only at h
  split_ifs at h with h0 hs h1 h2 h3 h1 h2 h3
  · have hr := Int.tmod_lt_of_pos (upper - lower) hs
    have hr0 := Int.tmod_nonneg stride (show 0 ≤ upper - lower by omega)
    rw [elem_iff_of_pos _ hs]
    simp only [Except.ok.injEq, Prod.mk.injEq] at h
    obtain ⟨rfl, rfl, rfl⟩ := h
    constructor
    · rintro ⟨k, hk, rfl⟩
      have hkq : (S : ℤ) * k ≤ S * q := by exact_mod_cast Nat.mul_le_mul_left S hk
      refine ⟨k, ?_, ?_⟩
      · push_cast
        rw [hst]
        linarith
      · push_cast
        linarith
    · rintro ⟨k, hx, hle⟩
      rw [hst] at hx hr hu
      refine ⟨k, ?_, ?_⟩
      · -- past the validated upper bound there is no room for another stride
        by_contra hc
        have : (q : ℤ) + 1 ≤ k := by omega
        nlinarith
      · zify
        linarith
  · have hneg : 0 < -stride := by omega
    have hr := Int.tmod_lt_of_pos (lower - upper) hneg
    have hr0 := Int.tmod_nonneg (-stride) (show 0 ≤ lower - upper by omega)
    rw [elem_iff_of_nonpos _ hs]
    simp only [Except.ok.injEq, Prod.mk.injEq] at h
    obtain ⟨rfl, rfl, rfl⟩ := h
    have hstr : stride = -S := by omega
    rw [hst] at hr hr0 hl
    constructor
    · rintro ⟨k, hk, rfl⟩
      have hk' : ((q - k : ℕ) : ℤ) = q - k := by omega
      refine ⟨q - k, ?_, ?_⟩
      · rw [hk', hstr]
        push_cast
        linarith
      · push_cast
        nlinarith
    · rintro ⟨k, hx, hle⟩
      rw [hstr] at hx
      have hkq : k ≤ q := by
        by_contra hc
        have : (q : ℤ) + 1 ≤ k := by omega
        nlinarith
      have hk' : ((q - k : ℕ) : ℤ) = q - k := by omega
      refine ⟨q - k, by omega, ?_⟩
      zify
      rw [hk']
      linarith

/-- The validated reference includes the nodes of the reference as it is written. -/
theorem includes_of_validate {ref ref' : NodesRef} {size : ℕ} (h : ref.validate size = .ok ref')
    (x : ℕ) : ref'.includes x = true ↔ ref.shrink = true ∨ ref.Elem (x + 1) := by
  obtain ⟨b, lower, upper, stride⟩ := ref
  cases b with
  | true =>
    cases h
    simp [includes]
  | false =>
    cases hv : validateNodesRef lower upper stride size with
    | error e => simp [validate, hv, bind, Except.bind] at h
    | ok v =>
      obtain ⟨l, u, s⟩ := v
      obtain rfl : (⟨false, l, u, s⟩ : NodesRef) = ref' := by
        simpa [validate, hv, bind, Except.bind] using h
      simpa [includes] using check_validateNodesRef hv x

def Forward (ref : NodesRef) : Prop := ref.shrink = false → 0 < ref.stride ∨ ref.lower = ref.upper

theorem stride_of_validateNodesRef {lower upper stride : ℤ} {size : ℕ} {v : ℤ × ℤ × ℤ}
    (h : validateNodesRef lower upper stride size = .ok v) :
    0 < stride ∨ stride < 0 ∧ upper ≤ lower := by
  unfold validateNodesRef at h
  simp only at h
  split_ifs at h with h0 hs h1 h2 h3 h1 h2 h3
  · exact Or.inl hs
  · exact Or.inr ⟨by omega, by omega⟩

/-- The test of the triplet as it is written misses every node of a backward one. -/
theorem includesNocomm_iff {ref ref' : NodesRef} {size : ℕ} (h : ref.validate size = .ok ref')
    (x : ℕ) :
    ref.includesNocomm x = true ↔ ref.shrink = true ∨ ref.Elem (x + 1) ∧ ref.Forward := by
  obtain ⟨b, lower, upper, stride⟩ := ref
  cases b with
  | true => simp [includesNocomm]
  | false =>
    have hv : 0 < stride ∨ stride < 0 ∧ upper ≤ lower := by
      cases hv : validateNodesRef lower upper stride size with
      | error e => simp [validate, hv, bind, Except.bind] at h
      | ok v => exact stride_of_validateNodesRef hv
    have htest : includesNocomm ⟨false, lower, upper, stride⟩ x = true ↔
        lower ≤ x + 1 ∧ (x + 1 : ℤ) ≤ upper ∧ stride ∣ x + 1 - lower := by
      simp only [includesNocomm, Bool.false_eq_true, if_false, Int.dvd_iff_tmod_eq_zero]
      split_ifs <;> simp <;> omega
    rw [htest]
    simp only [Bool.false_eq_true, false_or, Forward, true_imp_iff]
    rcases hv with hs | ⟨hs, hle⟩
    · rw [elem_iff_of_pos _ hs]
      constructor
      · rintro ⟨h1, h2, k, hk⟩
        have hk0 : 0 ≤ k := by
          by_contra hc
          nlinarith
        lift k to ℕ using hk0
        exact ⟨⟨k, by linarith, h2⟩, Or.inl hs⟩
      · rintro ⟨⟨k, hk, h2⟩, -⟩
        have : 0 ≤ stride * k := by positivity
        exact ⟨by linarith, h2, k, by linarith⟩
    · rw [elem_iff_of_nonpos _ hs.not_gt]
      constructor
      · -- no node lies above the lower bound of a backward triplet but its own end
        rintro ⟨h1, h2, -⟩
        exact ⟨⟨0, by push_cast; linarith, by linarith⟩, Or.inr (by linarith)⟩
      · rintro ⟨⟨k, hk, h2⟩, hs' | rfl⟩
        · omega
        · have : stride * k ≤ 0 := mul_nonpos_of_nonpos_of_nonneg hs.le (by positivity)
          exact ⟨by linarith, by linarith, k, by linarith⟩

end NodesRef

namespace NodesDesc

theorem isMember_iff {sizes : List ℕ} {refs refs' : List NodesRef}
    (hlen : refs.length = sizes.length) (h : validateRefs sizes refs = .ok refs') {cs : List ℕ}
    (hc : cs.length = sizes.length) :
    ((refs'.zip cs).all (fun d => d.1.includes d.2) = true ↔
        ∀ d ∈ refs.zip cs, d.1.shrink = true ∨ d.1.Elem (d.2 + 1)) ∧
      ((refs.zip cs).all (fun d => d.1.includesNocomm d.2) = true ↔
        ∀ d ∈ refs.zip cs, d.1.shrink = true ∨ d.1.Elem (d.2 + 1) ∧ d.1.Forward) := by
  induction sizes generalizing refs refs' cs with
  | nil =>
    obtain rfl := List.length_eq_zero_iff.mp hlen
    cases h
    simp
  | cons size sizes ih =>
    obtain ⟨ref, refs, rfl⟩ := List.exists_cons_of_length_eq_add_one hlen
    obtain ⟨c, cs, rfl⟩ := List.exists_cons_of_length_eq_add_one hc
    cases hr : ref.validate size with
    | error e => simp [validateRefs, hr, bind, Except.bind] at h
    | ok ref' =>
      cases hrs : validateRefs sizes refs with
      | error e => simp [validateRefs, hr, hrs, bind, Except.bind] at h
      | ok rest =>
        obtain rfl : ref' :: rest = refs' := by
          simpa [validateRefs, hr, hrs, bind, Except.bind] using h
        obtain ⟨ih1, ih2⟩ := ih (by simpa using hlen) hrs (by simpa using hc)
        simp only [List.zip_cons_cons, List.all_cons, Bool.and_eq_true, List.forall_mem_cons]
        rw [ih1, ih2, NodesRef.includes_of_validate hr, NodesRef.includesNocomm_iff hr]
        exact ⟨Iff.rfl, Iff.rfl⟩

/-- The two tests of a reference agree on a process unless the process is in the reference and
some triplet of it runs backwards. -/
theorem execTaskNodesPartNocomm_eq_iff (n : NodesDesc) (r : ℕ)
    {refs : List NodesRef} (hlen : refs.length = n.sizes.length) {member : Bool}
    (h : n.namedIsMember true r refs = .ok member) :
    n.execTaskNodesPartNocomm true r refs = member ↔
      (∀ ref ∈ refs, ref.shrink = false → 0 < ref.stride ∨ ref.lower = ref.upper) ∨
        ∃ d ∈ refs.zip (n.infoRank r), d.1.shrink = false ∧ ¬ d.1.Elem (d.2 + 1) := by
  have hcs : (n.infoRank r).length = n.sizes.length := length_residues 1 n.sizes r
  cases hv : validateRefs n.sizes refs with
  | error e => simp [namedIsMember, hv, bind, Except.bind] at h
  | ok refs' =>
    obtain rfl : n.isMember refs' r = member := by
      simpa [namedIsMember, hv, bind, Except.bind] using h
    obtain ⟨h1, h2⟩ := isMember_iff hlen hv hcs
    rw [execTaskNodesPartNocomm, if_pos rfl, isMember, Bool.eq_iff_iff, h1, h2]
    have hfst : ∀ ref ∈ refs, ∃ c, (ref, c) ∈ refs.zip (n.infoRank r) := by
      intro ref href
      rw [← List.map_fst_zip (hlen.trans hcs.symm).le] at href
      obtain ⟨d, hd, rfl⟩ := List.mem_map.mp href
      exact ⟨d.2, hd⟩
    constructor
    · intro hiff
      by_cases hall : ∀ d ∈ refs.zip (n.infoRank r), d.1.shrink = true ∨ d.1.Elem (d.2 + 1)
      · left
        intro ref href hs
        obtain ⟨c, hc⟩ := hfst ref href
        rcases hiff.mpr hall _ hc with h | ⟨-, hf⟩
        · simp [hs] at h
        · exact hf hs
      · right
        simp only [not_forall, not_or] at hall
        obtain ⟨d, hd, hs, he⟩ := hall
        exact ⟨d, hd, by simpa using hs, he⟩
    · rintro (hf | ⟨d, hd, hs, he⟩)
      · refine forall₂_congr fun d hd => ?_
        have hfd : d.1.Forward := hf d.1 (List.of_mem_zip hd).1
        rw [and_iff_left hfd]
      · constructor
        · intro hall
          rcases hall d hd with h | ⟨h, -⟩
          · simp [hs] at h
          · exact absurd h he
        · intro hall
          rcases hall d hd with h | h
          · simp [hs] at h
          · exact absurd h he

/-- Nodes five, three and one of six, taken backwards; the fourth process is not among them. -/
theorem execTaskNodesPartNocomm_eq_six :
    (NodesDesc.mk 0 .entire [6]).execTaskNodesPartNocomm true 3 [⟨false, 5, 1, -2⟩] = false := by
  have h := @execTaskNodesPartNocomm_eq_iff ⟨0, .entire, [6]⟩ 3 [⟨false, 5, 1, -2⟩] rfl false
    (by decide)
  refine h.mpr (Or.inr ⟨(⟨false, 5, 1, -2⟩, 3), by decide, rfl, ?_⟩)
  rintro ⟨k, hk, -⟩
  push_cast at hk
  omega

/-- The second of three processes is in `p(3:1:-1)`, and does not execute the task. -/
theorem execTaskNodesPartNocomm_backward :
    ∃ member, (NodesDesc.mk 0 .entire [3]).namedIsMember true 1 [⟨false, 3, 1, -1⟩] = .ok member ∧
      (NodesDesc.mk 0 .entire [3]).execTaskNodesPartNocomm true 1 [⟨false, 3, 1, -1⟩] ≠ member :=
  ⟨true, by decide, by decide⟩

end NodesDesc

end OmniCompiler.Xmp

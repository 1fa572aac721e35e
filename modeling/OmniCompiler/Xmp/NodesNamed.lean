import Mathlib.Data.Nat.Bitwise
import OmniCompiler.Arithmetic.Box
import OmniCompiler.Arithmetic.MachineInt
import OmniCompiler.Xmp.MathFunction
import OmniCompiler.Xmp.NodesRank

/-!
# Node sets that refer to another node set (`xmp_nodes.c`)

A process of a node set is known by its rank in the communicator of the set. Communicators are
split with the world rank as key, so a group of processes is listed in the order of these ranks.
-/
namespace OmniCompiler.Xmp

open MixedRadix

/-- One dimension of a reference to nodes: `*`, or a triplet. -/
structure NodesRef where
  shrink : Bool
  lower : ℤ
  upper : ℤ
  stride : ℤ
  deriving DecidableEq, Repr

/-- The triplet of a reference, counted from one, becomes an increasing triplet counted from zero
whose upper bound is an element. -/
def validateNodesRef (lower upper stride : ℤ) (size : ℕ) : Except String (ℤ × ℤ × ℤ) :=
  if stride = 0 then .error "the stride of <nodes-ref> is 0"
  else
    let l := if stride > 0 then lower else upper
    let u := if stride > 0 then upper else lower
    if 1 > l then .error "<nodes-ref> is out of bounds, <ref-lower> is less than 1"
    else if l > u then .error "<nodes-ref> is out of bounds, <ref-upper> is less than <ref-lower>"
    else if u > size then
      .error "<nodes-ref> is out of bounds, <ref-upper> is greater than the node size"
    else if stride > 0 then .ok (l - 1, u - (u - l).tmod stride - 1, stride)
    else .ok (l + (u - l).tmod (-stride) - 1, u - 1, -stride)

def checkNodesRefInclusion (lower upper stride rank : ℤ) : Bool :=
  ¬ (rank < lower ∨ rank > upper ∨ (rank - lower).tmod stride ≠ 0)

namespace NodesRef

def validate (ref : NodesRef) (size : ℕ) : Except String NodesRef :=
  if ref.shrink then .ok ref
  else do
    let (l, u, s) ← validateNodesRef ref.lower ref.upper ref.stride size
    .ok ⟨false, l, u, s⟩

def includes (ref : NodesRef) (rank : ℕ) : Bool :=
  ref.shrink || checkNodesRefInclusion ref.lower ref.upper ref.stride rank

/-- The length that `check_subcomm` and `get_subcomm` compute. -/
def length (ref : NodesRef) : ℤ := (ref.upper - ref.lower + 1).tdiv ref.stride

def single (ref : NodesRef) : Bool := ref.shrink || ref.length = 1

def count (ref : NodesRef) : ℤ :=
  if ref.shrink then 1 else countTriplet ref.lower ref.upper ref.stride

end NodesRef

/-- The calls of `_XMP_validate_nodes_ref` on the dimensions in turn. -/
def validateRefs : List ℕ → List NodesRef → Except String (List NodesRef)
  | size :: sizes, ref :: refs => do
    let ref' ← ref.validate size
    let refs' ← validateRefs sizes refs
    .ok (ref' :: refs')
  | _, _ => .ok []

namespace NodesDesc

/-- `info[i].rank` of the process with the given rank, as `_XMP_init_nodes_info` sets it. -/
def infoRank (n : NodesDesc) (commRank : ℕ) : List ℕ := residues 1 n.sizes commRank

/-- A colour that tells the coordinates in the shrunk dimensions;
`_XMP_init_nodes_struct_NODES_NAMED` computes it in the same way. -/
def getSubcommColor (n : NodesDesc) (shrink : List Bool) (rank : List ℕ) : ℕ :=
  ((n.sizes.zip (shrink.zip rank)).foldl
    (fun st d => (st.1 * d.1, if d.2.1 then st.2 + st.1 * d.2.2 else st.2)) (1, 1)).2

/-- `MPI_Comm_split`: the group of the process `r`. -/
def splitGroup (n : NodesDesc) (color : ℕ → ℕ) (r : ℕ) : List ℕ :=
  (List.range n.commSize).filter fun q => color q = color r

def shrinkBits (dim i : ℕ) : List Bool :=
  (List.range dim).map fun j => (i &&& (1 <<< j)) / (1 <<< j) ≠ 0

/-- The group of the process `r` in the cached communicator `subcomm[i]`. -/
def subcomm (n : NodesDesc) (i r : ℕ) : List ℕ :=
  if i = 0 then List.range n.commSize
  else if i = 1 <<< n.sizes.length - 1 then [r]
  else n.splitGroup
    (fun q => n.getSubcommColor (shrinkBits n.sizes.length i) (n.infoRank q)) r

def checkSubcomm (n : NodesDesc) (refs : List NodesRef) : Bool :=
  n.attr = .entire ∧
    (n.sizes.zip refs).all fun d => d.2.shrink || d.2.length = 1 || d.2.length = d.1

/-- The index of the communicator that `get_subcomm` picks. -/
def getSubcomm (refs : List NodesRef) : ℕ :=
  refs.zipIdx.foldl (fun acc d => if d.1.single then acc + 1 <<< d.2 else acc) 0

/-- Membership in the referenced nodes. -/
def isMember (n : NodesDesc) (refs : List NodesRef) (r : ℕ) : Bool :=
  (refs.zip (n.infoRank r)).all fun d => d.1.includes d.2

def namedColor (n : NodesDesc) (refs : List NodesRef) (r : ℕ) : ℕ :=
  if n.isMember refs r then n.getSubcommColor (refs.map NodesRef.shrink) (n.infoRank r) else 0

def namedCommSize (refs : List NodesRef) : ℤ :=
  refs.foldl (fun acc ref => if ref.shrink then acc else
    acc * countTriplet ref.lower ref.upper ref.stride) 1

/-- The communicator of the new node set on the process `r`. -/
def namedComm (n : NodesDesc) (refs : List NodesRef) (r : ℕ) : List ℕ :=
  if n.checkSubcomm refs then n.subcomm (getSubcomm refs) r
  else if namedCommSize refs = 1 then [r]
  else n.splitGroup (n.namedColor refs) r

end NodesDesc

/-! ## Validated references -/

/-- What `_XMP_validate_nodes_ref` makes of a reference. -/
structure NodesRef.Normal (size : ℕ) (ref : NodesRef) : Prop where
  lower_nonneg : 0 ≤ ref.lower
  lower_le : ref.lower ≤ ref.upper
  upper_lt : ref.upper < size
  stride_pos : 0 < ref.stride
  dvd : ref.stride ∣ ref.upper - ref.lower

theorem validateNodesRef_ok {lower upper stride : ℤ} {size : ℕ} {l u s : ℤ}
    (h : validateNodesRef lower upper stride size = .ok (l, u, s)) :
    NodesRef.Normal size ⟨false, l, u, s⟩ ∧ s = |stride| := by
  have round : ∀ d t : ℤ, 0 ≤ d → 0 < t → 0 ≤ d.tmod t ∧ d.tmod t ≤ d ∧ t ∣ d - d.tmod t := by
    intro d t hd ht
    have hdm := Int.tmod_add_tdiv_mul d t
    have hq := Int.tdiv_nonneg hd ht.le
    exact ⟨Int.tmod_nonneg t hd, by nlinarith, d.tdiv t, by linarith⟩
  unfold validateNodesRef at h
  simp only at h
  split_ifs at h with h0 hs h1 h2 h3 h1 h2 h3
  · obtain ⟨hr1, hr2, hr3⟩ := round (upper - lower) stride (by omega) hs
    simp only [Except.ok.injEq, Prod.mk.injEq] at h
    obtain ⟨rfl, rfl, rfl⟩ := h
    refine ⟨⟨by grind, by grind, by grind, hs, ?_⟩, (abs_of_pos hs).symm⟩
    have he : upper - (upper - lower).tmod stride - 1 - (lower - 1) =
        upper - lower - (upper - lower).tmod stride := by ring
    rwa [he]
  · have hneg : 0 < -stride := by omega
    obtain ⟨hr1, hr2, hr3⟩ := round (lower - upper) (-stride) (by omega) hneg
    simp only [Except.ok.injEq, Prod.mk.injEq] at h
    obtain ⟨rfl, rfl, rfl⟩ := h
    refine ⟨⟨by grind, by grind, by grind, hneg, ?_⟩, (abs_of_neg (by omega)).symm⟩
    have he : lower - 1 - (upper + (lower - upper).tmod (-stride) - 1) =
        lower - upper - (lower - upper).tmod (-stride) := by ring
    rwa [he]

def NodesRef.Validates (ref ref' : NodesRef) : Prop :=
  ref'.shrink = ref.shrink ∧ (ref.shrink = false → ref'.stride = |ref.stride|)

theorem NodesRef.validate_ok {ref ref' : NodesRef} {size : ℕ} (h : ref.validate size = .ok ref') :
    (ref'.shrink = false → ref'.Normal size) ∧ ref.Validates ref' := by
  unfold validate at h
  split_ifs at h with hs
  · cases h
    exact ⟨fun h => by simp [hs] at h, rfl, fun h => by simp [hs] at h⟩
  · cases hv : validateNodesRef ref.lower ref.upper ref.stride size with
    | error e => simp [hv, bind, Except.bind] at h
    | ok v =>
      obtain ⟨l, u, s⟩ := v
      obtain ⟨hn, hst⟩ := validateNodesRef_ok hv
      obtain rfl : (⟨false, l, u, s⟩ : NodesRef) = ref' := by
        simpa [hv, bind, Except.bind] using h
      exact ⟨fun _ => hn, by simpa using hs, fun _ => hst⟩

theorem validateRefs_ok {sizes : List ℕ} {refs refs' : List NodesRef}
    (hlen : refs.length = sizes.length) (h : validateRefs sizes refs = .ok refs') :
    List.Forall₂ (fun size ref' => ref'.shrink = false → ref'.Normal size) sizes refs' ∧
      List.Forall₂ NodesRef.Validates refs refs' := by
  induction sizes generalizing refs refs' with
  | nil =>
    rw [List.length_nil, List.length_eq_zero_iff] at hlen
    subst hlen
    cases h
    exact ⟨List.Forall₂.nil, List.Forall₂.nil⟩
  | cons size sizes ih =>
    obtain ⟨ref, refs, rfl⟩ := List.exists_cons_of_length_eq_add_one hlen
    cases hr : ref.validate size with
    | error e => simp [validateRefs, hr, bind, Except.bind] at h
    | ok ref' =>
      cases hrs : validateRefs sizes refs with
      | error e => simp [validateRefs, hr, hrs, bind, Except.bind] at h
      | ok rest =>
        obtain rfl : ref' :: rest = refs' := by
          simpa [validateRefs, hr, hrs, bind, Except.bind] using h
        obtain ⟨h1, h2⟩ := ref.validate_ok hr
        obtain ⟨h3, h4⟩ := ih (by simpa using hlen) hrs
        exact ⟨List.Forall₂.cons h1 h3, List.Forall₂.cons h2 h4⟩

/-! ## Elements of a validated reference -/

namespace NodesRef

variable {size : ℕ} {ref : NodesRef}

theorem Normal.exists_nat (h : ref.Normal size) : ∃ L S q : ℕ, ref.lower = L ∧ ref.stride = S ∧
    ref.upper = L + S * q ∧ 0 < S ∧ L + S * q < size := by
  obtain ⟨q, hq⟩ := h.dvd
  have h0 := h.stride_pos
  have h1 := h.lower_nonneg
  have h2 := h.lower_le
  have h3 := h.upper_lt
  have hq0 : 0 ≤ q := by
    by_contra hc
    nlinarith
  refine ⟨ref.lower.toNat, ref.stride.toNat, q.toNat, by omega, by omega, ?_, by omega, ?_⟩
  · rw [Int.toNat_of_nonneg h1, Int.toNat_of_nonneg h0.le, Int.toNat_of_nonneg hq0]
    linarith
  · zify
    rw [Int.toNat_of_nonneg h1, Int.toNat_of_nonneg h0.le, Int.toNat_of_nonneg hq0]
    linarith

theorem includes_iff {L S q : ℕ} (hs : ref.shrink = false) (hl : ref.lower = L)
    (hst : ref.stride = S) (hu : ref.upper = L + S * q) (hS : 0 < S) (x : ℕ) :
    ref.includes x = true ↔ ∃ k ≤ q, x = L + S * k := by
  simp only [includes, hs, Bool.false_or, checkNodesRefInclusion, hl, hst, hu, decide_eq_true_eq,
    not_or, not_lt, ne_eq, not_not, gt_iff_lt]
  constructor
  · rintro ⟨h1, h2, h3⟩
    obtain ⟨k, hk⟩ := Int.dvd_of_tmod_eq_zero h3
    have hS' : (0 : ℤ) < S := by omega
    have hk0 : 0 ≤ k := by
      by_contra hc
      nlinarith
    lift k to ℕ using hk0
    refine ⟨k, ?_, ?_⟩
    · have : (k : ℤ) ≤ q := by
        by_contra hc
        nlinarith
      omega
    · zify
      linarith
  · rintro ⟨k, hk, rfl⟩
    have hle : S * k ≤ S * q := Nat.mul_le_mul_left S hk
    refine ⟨by push_cast; nlinarith, by push_cast; exact_mod_cast Nat.add_le_add_left hle L, ?_⟩
    push_cast
    rw [add_sub_cancel_left, Int.mul_tmod_right]

theorem count_eq {L S q : ℕ} (hs : ref.shrink = false) (hl : ref.lower = L)
    (hst : ref.stride = S) (hu : ref.upper = L + S * q) (hS : 0 < S) : ref.count = q + 1 := by
  rw [count, if_neg (by simp [hs]), countTriplet, hl, hst, hu, add_sub_cancel_left,
    Int.mul_tdiv_cancel_left _ (by omega)]

theorem Normal.filter_includes (h : ref.Normal size) (hs : ref.shrink = false) :
    (List.range size).filter (fun x => ref.includes x) =
      (List.range ref.count.toNat).map fun k => ref.lower.toNat + ref.stride.toNat * k := by
  obtain ⟨L, S, q, hl, hst, hu, hS, hlt⟩ := h.exists_nat
  have hc := count_eq hs hl hst hu hS
  have hsort : ((List.range ref.count.toNat).map
      fun k => ref.lower.toNat + ref.stride.toNat * k).Pairwise (· < ·) := by
    rw [List.pairwise_map]
    refine List.pairwise_lt_range.imp fun {a b} hab => ?_
    rw [hst, Int.toNat_natCast]
    exact Nat.add_lt_add_left (Nat.mul_lt_mul_of_pos_left hab hS) _
  refine List.Pairwise.eq_of_mem_iff (List.pairwise_lt_range.filter _) hsort fun x => ?_
  rw [List.mem_filter, List.mem_range, includes_iff hs hl hst hu hS]
  simp only [List.mem_map, List.mem_range, hl, hst, hc, Int.toNat_natCast]
  constructor
  · rintro ⟨-, k, hk, rfl⟩
    exact ⟨k, by omega, rfl⟩
  · rintro ⟨k, hk, rfl⟩
    have hk' : k ≤ q := by omega
    have hle : S * k ≤ S * q := Nat.mul_le_mul_left S hk'
    exact ⟨by omega, k, hk', rfl⟩

theorem Normal.includes_of_unit (h : ref.Normal size) (hs : ref.shrink = false)
    (h1 : ref.stride = 1) {x y : ℕ} (hx : x < size) (hy : ref.includes y = true)
    (hlen : ref.length = 1 ∨ ref.length = size) :
    ref.includes x = true ↔ (ref.length = 1 → x = y) := by
  obtain ⟨L, S, q, hl, hst, hu, hS, hlt⟩ := h.exists_nat
  obtain rfl : S = 1 := by omega
  have hlen' : ref.length = q + 1 := by
    rw [length, hl, hst, hu]
    push_cast
    rw [Int.tdiv_one]
    ring
  rw [includes_iff hs hl hst hu hS] at hy ⊢
  obtain ⟨k, hk, rfl⟩ := hy
  rw [hlen'] at hlen ⊢
  constructor
  · rintro ⟨j, hj, rfl⟩ hq
    have : q = 0 := by omega
    omega
  · intro hq
    by_cases hq0 : q = 0
    · exact ⟨0, by omega, by rw [hq (by omega)]; omega⟩
    · exact ⟨x - L, by omega, by omega⟩

theorem Normal.lower_ne_upper (h : ref.Normal size) (h1 : ref.stride ≠ 1)
    (hlen : ref.length = 1 ∨ ref.length = size) : ref.single = true ∧ ref.lower ≠ ref.upper := by
  obtain ⟨L, S, q, hl, hst, hu, hS, hlt⟩ := h.exists_nat
  have hS2 : 2 ≤ S := by omega
  have hlen' : ref.length = q := by
    have he : ref.upper - ref.lower + 1 = 1 + S * q := by rw [hl, hu]; ring
    rw [length, he, hst, Int.tdiv_eq_ediv_of_nonneg (by positivity),
      Int.add_mul_ediv_left _ _ (by omega), Int.ediv_eq_zero_of_lt (by omega) (by omega), zero_add]
  have hq : q ≤ S * q := Nat.le_mul_of_pos_left q hS
  rw [hlen'] at hlen
  have hq1 : q = 1 := by omega
  refine ⟨by simp [single, hlen', hq1], ?_⟩
  rw [hl, hu, hq1]
  omega

end NodesRef

/-! ## Groups by coordinates -/

def masked (shrink : List Bool) (rank : List ℕ) : List ℕ :=
  List.zipWith (fun b x => if b then x else 0) shrink rank

theorem inRange_masked {shrink : List Bool} {cs sizes : List ℕ} (hc : InRange cs sizes)
    (hl : shrink.length = sizes.length) : InRange (masked shrink cs) sizes := by
  induction hc generalizing shrink with
  | nil =>
    rw [List.length_nil, List.length_eq_zero_iff] at hl
    subst hl
    exact List.Forall₂.nil
  | @cons c s cs sizes hcs _ ih =>
    obtain ⟨b, shrink, rfl⟩ := List.exists_cons_of_length_eq_add_one hl
    refine List.Forall₂.cons ?_ (ih (by simpa using hl))
    cases b
    · exact Nat.zero_lt_of_lt hcs
    · exact hcs

namespace NodesDesc

variable {n : NodesDesc}

theorem getSubcommColor_foldl (sizes : List ℕ) (shrink : List Bool) (rank : List ℕ) (m c : ℕ) :
    ((sizes.zip (shrink.zip rank)).foldl
      (fun st d => (st.1 * d.1, if d.2.1 then st.2 + st.1 * d.2.2 else st.2)) (m, c)).2 =
      c + value m sizes (masked shrink rank) := by
  induction sizes generalizing shrink rank m c with
  | nil => simp [value]
  | cons s sizes ih =>
    cases shrink with
    | nil => simp [masked, value]
    | cons b shrink =>
      cases rank with
      | nil => simp [masked, value]
      | cons x rank =>
        rw [List.zip_cons_cons, List.zip_cons_cons, List.foldl_cons, ih]
        cases b <;> simp [masked, value, mul_comm, add_assoc]

/-- Two processes have one colour when they agree in the shrunk dimensions. -/
theorem getSubcommColor_eq_iff {shrink : List Bool} {cs cs' : List ℕ} (hc : InRange cs n.sizes)
    (hc' : InRange cs' n.sizes) (hl : shrink.length = n.sizes.length) :
    n.getSubcommColor shrink cs = n.getSubcommColor shrink cs' ↔
      masked shrink cs = masked shrink cs' := by
  rw [getSubcommColor, getSubcommColor, getSubcommColor_foldl, getSubcommColor_foldl,
    Nat.add_left_cancel_iff]
  constructor
  · exact value_inj (inRange_masked hc hl) (inRange_masked hc' hl)
  · intro h
    rw [h]

theorem inRange_infoRank {r : ℕ} (hr : r < n.commSize) : InRange (n.infoRank r) n.sizes :=
  inRange_residues hr

theorem length_infoRank (r : ℕ) : (n.infoRank r).length = n.sizes.length := length_residues ..

@[simp] theorem length_shrinkBits (dim i : ℕ) : (shrinkBits dim i).length = dim := by
  simp [shrinkBits]

theorem shrinkBits_eq (dim i : ℕ) : shrinkBits dim i = (List.range dim).map i.testBit := by
  apply List.map_congr_left
  intro j _
  rw [Nat.one_shiftLeft, Nat.and_two_pow, Nat.mul_div_cancel _ (Nat.two_pow_pos j)]
  cases i.testBit j <;> rfl

theorem subcomm_eq (i : ℕ) {r : ℕ} (hr : r < n.commSize) :
    n.subcomm i r = n.splitGroup
      (fun q => n.getSubcommColor (shrinkBits n.sizes.length i) (n.infoRank q)) r := by
  unfold subcomm
  split_ifs with h0 h1
  · have hmask : ∀ cs : List ℕ, cs.length = n.sizes.length →
        masked (shrinkBits n.sizes.length i) cs = List.replicate n.sizes.length 0 := by
      intro cs hcs
      rw [shrinkBits_eq, h0, masked, List.eq_replicate_iff]
      refine ⟨by simp [hcs], fun x hx => ?_⟩
      rw [List.mem_iff_getElem] at hx
      obtain ⟨k, hk, rfl⟩ := hx
      simp
    rw [splitGroup, eq_comm, List.filter_eq_self]
    intro q hq
    rw [decide_eq_true_eq, getSubcommColor_eq_iff (inRange_infoRank (List.mem_range.mp hq))
      (inRange_infoRank hr) (by simp), hmask _ (length_infoRank q), hmask _ (length_infoRank r)]
  · have hmask : ∀ cs : List ℕ, cs.length = n.sizes.length →
        masked (shrinkBits n.sizes.length i) cs = cs := by
      intro cs hcs
      rw [shrinkBits_eq, h1, Nat.one_shiftLeft, masked]
      apply List.ext_getElem
      · simp [hcs]
      · intro k hk _
        have hk' : k < n.sizes.length := by simpa [hcs] using hk
        simp [Nat.testBit_two_pow_sub_one, hk']
    have hfil : ∀ q ∈ List.range n.commSize,
        decide (n.getSubcommColor (shrinkBits n.sizes.length i) (n.infoRank q) =
          n.getSubcommColor (shrinkBits n.sizes.length i) (n.infoRank r)) = decide (q = r) := by
      intro q hq
      rw [decide_eq_decide, getSubcommColor_eq_iff (inRange_infoRank (List.mem_range.mp hq))
        (inRange_infoRank hr) (by simp), hmask _ (length_infoRank q), hmask _ (length_infoRank r)]
      exact ⟨residues_inj (List.mem_range.mp hq) hr, fun h => h ▸ rfl⟩
    rw [splitGroup, List.filter_congr hfil, List.filter_eq,
      List.count_eq_one_of_mem List.nodup_range (List.mem_range.mpr hr)]
    rfl
  · rfl

def bitsValue : List Bool → ℕ
  | [] => 0
  | b :: bs => Nat.bit b (bitsValue bs)

theorem map_testBit_bitsValue (bs : List Bool) :
    (List.range bs.length).map (bitsValue bs).testBit = bs := by
  induction bs with
  | nil => rfl
  | cons b bs ih =>
    rw [List.length_cons, List.range_succ_eq_map, List.map_cons, List.map_map]
    congr 1
    · simp [bitsValue]
    · conv_rhs => rw [← ih]
      apply List.map_congr_left
      intro j _
      simp [bitsValue, Nat.testBit_bit_succ]

theorem getSubcomm_foldl (refs : List NodesRef) (k acc : ℕ) :
    (refs.zipIdx k).foldl (fun acc d => if d.1.single then acc + 1 <<< d.2 else acc) acc =
      acc + 2 ^ k * bitsValue (refs.map NodesRef.single) := by
  induction refs generalizing k acc with
  | nil => simp [bitsValue]
  | cons ref refs ih =>
    rw [List.zipIdx_cons, List.foldl_cons, ih, List.map_cons, bitsValue, pow_succ, Nat.bit_val]
    cases ref.single <;> simp [Nat.one_shiftLeft] <;> ring

theorem shrinkBits_getSubcomm (refs : List NodesRef) :
    shrinkBits refs.length (getSubcomm refs) = refs.map NodesRef.single := by
  have h := map_testBit_bitsValue (refs.map NodesRef.single)
  rw [List.length_map] at h
  rw [shrinkBits_eq, getSubcomm, getSubcomm_foldl, zero_add, pow_zero, one_mul, h]

/-! ## The two ways to a communicator -/

theorem namedCommSize_eq (refs : List NodesRef) :
    namedCommSize refs = (refs.map NodesRef.count).prod := by
  have h : ∀ acc : ℤ, refs.foldl (fun acc ref => if ref.shrink then acc else
      acc * countTriplet ref.lower ref.upper ref.stride) acc =
      acc * (refs.map NodesRef.count).prod := by
    induction refs with
    | nil => simp
    | cons ref refs ih =>
      intro acc
      rw [List.foldl_cons, ih, List.map_cons, List.prod_cons, NodesRef.count]
      split_ifs
      · rw [one_mul]
      · rw [mul_assoc]
  rw [namedCommSize, h, one_mul]

def NormalRefs (sizes : List ℕ) (refs : List NodesRef) : Prop :=
  List.Forall₂ (fun size ref => ref.shrink = false → ref.Normal size) sizes refs

/-- Two members of the referenced nodes agree in the shrunk dimensions. -/
theorem namedColor_eq_iff {refs : List NodesRef} (hn : NormalRefs n.sizes refs) {q r : ℕ}
    (hq : q < n.commSize) (hr : r < n.commSize) (hm : n.isMember refs r = true) :
    n.namedColor refs q = n.namedColor refs r ↔ n.isMember refs q = true ∧
      masked (refs.map NodesRef.shrink) (n.infoRank q) =
        masked (refs.map NodesRef.shrink) (n.infoRank r) := by
  have hlen : (refs.map NodesRef.shrink).length = n.sizes.length := by
    simpa using hn.length_eq.symm
  have hpos : n.getSubcommColor (refs.map NodesRef.shrink) (n.infoRank r) ≠ 0 := by
    rw [getSubcommColor, getSubcommColor_foldl]
    omega
  rw [namedColor, namedColor, if_pos hm]
  by_cases hmq : n.isMember refs q = true
  · rw [if_pos hmq, getSubcommColor_eq_iff (inRange_infoRank hq) (inRange_infoRank hr) hlen]
    simp [hmq]
  · rw [if_neg hmq]
    exact ⟨fun h => absurd h.symm hpos, fun h => absurd h.1 hmq⟩

/-- For unit strides, agreeing where the dimension counts as single is being a member in the same
slice. -/
theorem masked_single_iff {sizes : List ℕ} {refs : List NodesRef} (hn : NormalRefs sizes refs)
    (hacc : (sizes.zip refs).all (fun d => d.2.shrink || d.2.length = 1 || d.2.length = d.1) = true)
    (hunit : ∀ ref ∈ refs, ref.shrink = false → ref.stride = 1) {cs cs' : List ℕ}
    (hc : InRange cs sizes) (hc' : InRange cs' sizes)
    (hm : (refs.zip cs).all (fun d => d.1.includes d.2) = true) :
    masked (refs.map NodesRef.single) cs' = masked (refs.map NodesRef.single) cs ↔
      (refs.zip cs').all (fun d => d.1.includes d.2) = true ∧
        masked (refs.map NodesRef.shrink) cs' = masked (refs.map NodesRef.shrink) cs := by
  induction hn generalizing cs cs' with
  | nil =>
    cases hc
    cases hc'
    simp
  | @cons size ref sizes refs hnorm _ ih =>
    obtain ⟨x, cs, hx, hcs, rfl⟩ := List.forall₂_cons_right_iff.mp hc
    obtain ⟨x', cs', hx', hcs', rfl⟩ := List.forall₂_cons_right_iff.mp hc'
    simp only [List.zip_cons_cons, List.all_cons, Bool.and_eq_true, Bool.or_eq_true,
      decide_eq_true_eq] at hacc hm
    have ih' := ih hacc.2 (fun ref hr => hunit ref (by simp [hr])) hcs hcs' hm.2
    simp only [List.map_cons, masked, List.zipWith_cons_cons, List.cons.injEq, List.zip_cons_cons,
      List.all_cons, Bool.and_eq_true] at ih' ⊢
    rw [ih']
    cases hs : ref.shrink with
    | true => simp [NodesRef.single, NodesRef.includes, hs, and_left_comm]
    | false =>
      have hlen : ref.length = 1 ∨ ref.length = size := by simpa [hs] using hacc.1
      have hinc := (hnorm hs).includes_of_unit hs (hunit ref (by simp) hs) hx' hm.1 hlen
      rw [hinc]
      by_cases h1 : ref.length = 1 <;> simp [NodesRef.single, hs, h1, and_assoc]

/-- The tests that a process of the slice of `cs` passes, dimension by dimension. -/
def sliceTests (refs : List NodesRef) (cs : List ℕ) : List (ℕ → Bool) :=
  List.zipWith (fun ref x y => if ref.shrink then decide (y = x) else ref.includes y) refs cs

theorem passes_sliceTests {refs : List NodesRef} {cs cs' : List ℕ}
    (hl : cs.length = refs.length) (hl' : cs'.length = refs.length) :
    Alignment.passes (sliceTests refs cs) cs' = true ↔
      (refs.zip cs').all (fun d => d.1.includes d.2) = true ∧
        masked (refs.map NodesRef.shrink) cs' = masked (refs.map NodesRef.shrink) cs := by
  induction refs generalizing cs cs' with
  | nil => simp [sliceTests, Alignment.passes, masked]
  | cons ref refs ih =>
    obtain ⟨x, cs, rfl⟩ := List.exists_cons_of_length_eq_add_one hl
    obtain ⟨x', cs', rfl⟩ := List.exists_cons_of_length_eq_add_one hl'
    have ih' := @ih cs cs' (by simpa using hl) (by simpa using hl')
    simp only [sliceTests, Alignment.passes, masked, List.zipWith_cons_cons, List.zip_cons_cons,
      List.all_cons, List.map_cons, List.cons.injEq, Bool.and_eq_true] at ih' ⊢
    rw [ih']
    cases hs : ref.shrink with
    | true => simp [NodesRef.includes, hs, and_left_comm]
    | false => simp [and_assoc]

theorem map_infoRank_splitGroup {refs : List NodesRef} (hn : NormalRefs n.sizes refs) {r : ℕ}
    (hr : r < n.commSize) (hm : n.isMember refs r = true) :
    (n.splitGroup (n.namedColor refs) r).map n.infoRank =
      Alignment.firstFastest (List.zipWith List.filter (sliceTests refs (n.infoRank r))
        (n.sizes.map List.range)) := by
  have hlen : ∀ q, (n.infoRank q).length = refs.length := by
    intro q
    rw [length_infoRank, hn.length_eq]
  have htest : ∀ q ∈ List.range n.commSize,
      decide (n.namedColor refs q = n.namedColor refs r) =
        (Alignment.passes (sliceTests refs (n.infoRank r)) ∘ n.infoRank) q := by
    intro q hq
    rw [Bool.eq_iff_iff, decide_eq_true_eq, Function.comp_apply,
      namedColor_eq_iff hn (List.mem_range.mp hq) hr hm, passes_sliceTests (hlen r) (hlen q)]
    rfl
  have hbox : (List.range n.commSize).map n.infoRank =
      Alignment.firstFastest (n.sizes.map List.range) := map_residues_range n.sizes
  rw [splitGroup, List.filter_congr htest, ← List.filter_map, hbox, Alignment.filter_firstFastest]
  simp [sliceTests, hlen, hn.length_eq]

theorem prod_length_slice {sizes : List ℕ} {refs : List NodesRef} (hn : NormalRefs sizes refs)
    {cs : List ℕ} (hc : InRange cs sizes) :
    (((List.zipWith List.filter (sliceTests refs cs) (sizes.map List.range)).map
      List.length).prod : ℤ) = namedCommSize refs := by
  rw [namedCommSize_eq]
  induction hn generalizing cs with
  | nil => simp [sliceTests]
  | @cons size ref sizes refs hnorm _ ih =>
    obtain ⟨x, cs, hx, hcs, rfl⟩ := List.forall₂_cons_right_iff.mp hc
    have ih' := ih hcs
    simp only [sliceTests, List.zipWith_cons_cons, List.map_cons, List.prod_cons] at ih' ⊢
    rw [Nat.cast_mul, ih']
    congr 1
    cases hs : ref.shrink with
    | true =>
      simp only [NodesRef.count, hs, if_true]
      rw [List.filter_eq, List.count_eq_one_of_mem List.nodup_range (List.mem_range.mpr hx)]
      rfl
    | false =>
      obtain ⟨L, S, q, hl, hst, hu, hS, -⟩ := (hnorm hs).exists_nat
      have hcount := NodesRef.count_eq hs hl hst hu hS
      simp only [Bool.false_eq_true, if_false]
      rw [(hnorm hs).filter_includes hs, List.length_map, List.length_range, hcount]
      omega

theorem length_splitGroup {refs : List NodesRef} (hn : NormalRefs n.sizes refs) {r : ℕ}
    (hr : r < n.commSize) (hm : n.isMember refs r = true) :
    ((n.splitGroup (n.namedColor refs) r).length : ℤ) = namedCommSize refs := by
  rw [← prod_length_slice hn (inRange_infoRank hr), ← Alignment.length_firstFastest,
    ← map_infoRank_splitGroup hn hr hm, List.length_map]

theorem masked_single_imp {sizes : List ℕ} {refs : List NodesRef} (hn : NormalRefs sizes refs)
    (hacc : (sizes.zip refs).all (fun d => d.2.shrink || d.2.length = 1 || d.2.length = d.1) = true)
    {cs cs' : List ℕ} (hc : InRange cs sizes) (hc' : InRange cs' sizes)
    (hm : (refs.zip cs).all (fun d => d.1.includes d.2) = true)
    (h : masked (refs.map NodesRef.single) cs' = masked (refs.map NodesRef.single) cs) :
    (refs.zip cs').all (fun d => d.1.includes d.2) = true ∧
      masked (refs.map NodesRef.shrink) cs' = masked (refs.map NodesRef.shrink) cs := by
  induction hn generalizing cs cs' with
  | nil =>
    cases hc
    cases hc'
    simp
  | @cons size ref sizes refs hnorm _ ih =>
    obtain ⟨x, cs, hx, hcs, rfl⟩ := List.forall₂_cons_right_iff.mp hc
    obtain ⟨x', cs', hx', hcs', rfl⟩ := List.forall₂_cons_right_iff.mp hc'
    simp only [List.zip_cons_cons, List.all_cons, Bool.and_eq_true, Bool.or_eq_true,
      decide_eq_true_eq] at hacc hm
    simp only [List.map_cons, masked, List.zipWith_cons_cons, List.cons.injEq, List.zip_cons_cons,
      List.all_cons, Bool.and_eq_true] at h ih ⊢
    obtain ⟨ih1, ih2⟩ := ih hacc.2 hcs hcs' hm.2 h.2
    cases hs : ref.shrink with
    | true =>
      have hxx : x' = x := by simpa [NodesRef.single, hs] using h.1
      exact ⟨⟨by simp [NodesRef.includes, hs], ih1⟩, by rw [hxx], ih2⟩
    | false =>
      have hlen : ref.length = 1 ∨ ref.length = size := by simpa [hs] using hacc.1
      have hsame : ref.length = 1 → x' = x := fun h1 => by
        simpa [NodesRef.single, hs, h1] using h.1
      refine ⟨⟨?_, ih1⟩, by simp, ih2⟩
      by_cases h1 : ref.stride = 1
      · exact ((hnorm hs).includes_of_unit hs h1 hx' hm.1 hlen).mpr hsame
      · have hone : ref.length = 1 := by
          simpa [NodesRef.single, hs] using ((hnorm hs).lower_ne_upper h1 hlen).1
        rw [hsame hone]
        exact hm.1

theorem namedComm_eq {refs : List NodesRef} (hn : NormalRefs n.sizes refs) {r : ℕ}
    (hr : r < n.commSize) (hm : n.isMember refs r = true)
    (hsize : ((n.namedComm refs r).length : ℤ) = namedCommSize refs) :
    n.namedComm refs r = n.splitGroup (n.namedColor refs) r := by
  have hlen := length_splitGroup hn hr hm
  have hmem : r ∈ n.splitGroup (n.namedColor refs) r := by
    rw [splitGroup, List.mem_filter]
    exact ⟨List.mem_range.mpr hr, by simp⟩
  unfold namedComm at hsize ⊢
  split_ifs at hsize ⊢ with hc h1
  · have hacc : (n.sizes.zip refs).all
        (fun d => d.2.shrink || d.2.length = 1 || d.2.length = d.1) = true := by
      simp only [checkSubcomm, decide_eq_true_eq] at hc
      exact hc.2
    have hsub : (n.subcomm (getSubcomm refs) r).Sublist (n.splitGroup (n.namedColor refs) r) := by
      have heq : n.subcomm (getSubcomm refs) r =
          (n.splitGroup (n.namedColor refs) r).filter fun q =>
            n.getSubcommColor (refs.map NodesRef.single) (n.infoRank q) =
              n.getSubcommColor (refs.map NodesRef.single) (n.infoRank r) := by
        rw [subcomm_eq _ hr, hn.length_eq, shrinkBits_getSubcomm, splitGroup, splitGroup,
          List.filter_filter]
        apply List.filter_congr
        intro q hq
        have hq' := List.mem_range.mp hq
        rw [Bool.eq_iff_iff, Bool.and_eq_true, decide_eq_true_eq, decide_eq_true_eq,
          namedColor_eq_iff hn hq' hr hm, getSubcommColor_eq_iff (inRange_infoRank hq')
            (inRange_infoRank hr) (by simpa using hn.length_eq.symm)]
        refine ⟨fun h => ⟨h, ?_⟩, And.left⟩
        exact masked_single_imp hn hacc (inRange_infoRank hr) (inRange_infoRank hq') hm h
      rw [heq]
      exact List.filter_sublist
    exact hsub.eq_of_length (by omega)
  · rw [h1] at hlen
    obtain ⟨x, hx⟩ := List.length_eq_one_iff.mp (show _ = 1 by exact_mod_cast hlen)
    rw [hx] at hmem ⊢
    rw [List.mem_singleton.mp hmem]
  · rfl

/-- The cached communicator has the processes of the slice. -/
def SubcommAgrees (n : NodesDesc) (refs : List NodesRef) : Prop :=
  ∀ r < n.commSize, n.isMember refs r = true →
    n.subcomm (getSubcomm refs) r = n.splitGroup (n.namedColor refs) r ∧
      ((n.subcomm (getSubcomm refs) r).length : ℤ) = namedCommSize refs

theorem subcommAgrees_of_unit {refs : List NodesRef} (hn : NormalRefs n.sizes refs)
    (hc : n.checkSubcomm refs = true)
    (hunit : ∀ ref ∈ refs, ref.shrink = false → ref.stride = 1) : n.SubcommAgrees refs := by
  intro r hr hm
  have hacc : (n.sizes.zip refs).all
      (fun d => d.2.shrink || d.2.length = 1 || d.2.length = d.1) = true := by
    simp only [checkSubcomm, decide_eq_true_eq] at hc
    exact hc.2
  have hgroup : n.subcomm (getSubcomm refs) r = n.splitGroup (n.namedColor refs) r := by
    rw [subcomm_eq _ hr, hn.length_eq, shrinkBits_getSubcomm]
    apply List.filter_congr
    intro q hq
    have hq' := List.mem_range.mp hq
    rw [decide_eq_decide, namedColor_eq_iff hn hq' hr hm,
      getSubcommColor_eq_iff (inRange_infoRank hq') (inRange_infoRank hr)
        (by simpa using hn.length_eq.symm)]
    exact masked_single_iff hn hacc hunit (inRange_infoRank hr) (inRange_infoRank hq') hm
  exact ⟨hgroup, by rw [hgroup, length_splitGroup hn hr hm]⟩

def corner (f : NodesRef → ℤ) (refs : List NodesRef) : List ℕ :=
  refs.map fun ref => if ref.shrink then 0 else (f ref).toNat

theorem corner_spec {sizes : List ℕ} {refs : List NodesRef} (hn : NormalRefs sizes refs)
    (hpos : ∀ s ∈ sizes, 0 < s) {f : NodesRef → ℤ}
    (hf : ∀ (size : ℕ) ref, NodesRef.Normal size ref → 0 ≤ f ref ∧ f ref < size ∧
      (ref.shrink = false → ref.includes (f ref).toNat = true)) :
    InRange (corner f refs) sizes ∧
      (refs.zip (corner f refs)).all (fun d => d.1.includes d.2) = true ∧
      masked (refs.map NodesRef.shrink) (corner f refs) = List.replicate refs.length 0 := by
  induction hn with
  | nil => exact ⟨List.Forall₂.nil, rfl, rfl⟩
  | @cons size ref sizes refs hnorm _ ih =>
    obtain ⟨ih1, ih2, ih3⟩ := ih fun s hs => hpos s (by simp [hs])
    have hsize : 0 < size := hpos size (by simp)
    simp only [corner, masked] at ih1 ih2 ih3
    simp only [corner, List.map_cons, List.zip_cons_cons, List.all_cons, masked,
      List.zipWith_cons_cons, List.length_cons, List.replicate_succ, ih2, ih3, Bool.and_true]
    cases hs : ref.shrink with
    | true => exact ⟨List.Forall₂.cons hsize ih1, by simp [NodesRef.includes, hs], rfl⟩
    | false =>
      obtain ⟨h1, h2, h3⟩ := hf size ref (hnorm hs)
      refine ⟨List.Forall₂.cons ?_ ih1, by simpa using h3 hs, by simp⟩
      simp only [Bool.false_eq_true, if_false]
      exact (Int.toNat_lt h1).mpr h2

theorem lower_spec (size : ℕ) (ref : NodesRef) (h : ref.Normal size) :
    0 ≤ ref.lower ∧ ref.lower < size ∧
      (ref.shrink = false → ref.includes ref.lower.toNat = true) := by
  refine ⟨h.lower_nonneg, lt_of_le_of_lt h.lower_le h.upper_lt, fun hs => ?_⟩
  obtain ⟨L, S, q, hl, hst, hu, hS, -⟩ := h.exists_nat
  rw [NodesRef.includes_iff hs hl hst hu hS]
  exact ⟨0, Nat.zero_le q, by omega⟩

theorem upper_spec (size : ℕ) (ref : NodesRef) (h : ref.Normal size) :
    0 ≤ ref.upper ∧ ref.upper < size ∧
      (ref.shrink = false → ref.includes ref.upper.toNat = true) := by
  refine ⟨le_trans h.lower_nonneg h.lower_le, h.upper_lt, fun hs => ?_⟩
  obtain ⟨L, S, q, hl, hst, hu, hS, -⟩ := h.exists_nat
  rw [NodesRef.includes_iff hs hl hst hu hS]
  exact ⟨q, le_rfl, by omega⟩

/-- When the communicators agree, the two ends of a section are the same in every dimension that
counts as single. -/
theorem SubcommAgrees.corners {refs : List NodesRef} (h : n.SubcommAgrees refs)
    (hn : NormalRefs n.sizes refs) (hpos : ∀ s ∈ n.sizes, 0 < s) :
    masked (refs.map NodesRef.single) (corner NodesRef.upper refs) =
      masked (refs.map NodesRef.single) (corner NodesRef.lower refs) := by
  obtain ⟨hl1, hl2, hl3⟩ := @corner_spec _ _ hn hpos NodesRef.lower lower_spec
  obtain ⟨hu1, hu2, hu3⟩ := @corner_spec _ _ hn hpos NodesRef.upper upper_spec
  have hrank : ∀ {cs}, InRange cs n.sizes → ∃ r < n.commSize, n.infoRank r = cs := by
    intro cs hcs
    have hlt := value_lt hcs one_pos
    rw [zero_add, one_mul] at hlt
    exact ⟨_, hlt, residues_value hcs⟩
  obtain ⟨r, hr, hrl⟩ := hrank hl1
  obtain ⟨q, hq, hqu⟩ := hrank hu1
  have hm : n.isMember refs r = true := by rw [isMember, hrl]; exact hl2
  have hmq : n.isMember refs q = true := by rw [isMember, hqu]; exact hu2
  have hsame : q ∈ n.splitGroup (n.namedColor refs) r := by
    rw [splitGroup, List.mem_filter, List.mem_range, decide_eq_true_eq,
      namedColor_eq_iff hn hq hr hm, hqu, hrl, hu3, hl3]
    exact ⟨hq, hmq, rfl⟩
  rw [← (h r hr hm).1, subcomm_eq _ hr, hn.length_eq, shrinkBits_getSubcomm, splitGroup,
    List.mem_filter, decide_eq_true_eq, getSubcommColor_eq_iff (inRange_infoRank hq)
      (inRange_infoRank hr) (by simpa using hn.length_eq.symm), hqu, hrl] at hsame
  exact hsame.2

theorem unit_of_corners {sizes : List ℕ} {refs : List NodesRef} (hn : NormalRefs sizes refs)
    (hacc : (sizes.zip refs).all (fun d => d.2.shrink || d.2.length = 1 || d.2.length = d.1) = true)
    (h : masked (refs.map NodesRef.single) (corner NodesRef.upper refs) =
      masked (refs.map NodesRef.single) (corner NodesRef.lower refs)) :
    ∀ ref ∈ refs, ref.shrink = false → ref.stride = 1 := by
  induction hn with
  | nil => simp
  | @cons size ref sizes refs hnorm _ ih =>
    simp only [List.zip_cons_cons, List.all_cons, Bool.and_eq_true, Bool.or_eq_true,
      decide_eq_true_eq] at hacc
    simp only [corner, List.map_cons, masked, List.zipWith_cons_cons, List.cons.injEq] at h
    intro ref' hr hs
    rcases List.mem_cons.mp hr with rfl | hr
    · by_contra h1
      have hlen : ref'.length = 1 ∨ ref'.length = size := by simpa [hs] using hacc.1
      obtain ⟨hsingle, hne⟩ := (hnorm hs).lower_ne_upper h1 hlen
      have heq : ref'.upper.toNat = ref'.lower.toNat := by simpa [hsingle, hs] using h.1
      have := (hnorm hs).lower_nonneg
      have := (hnorm hs).lower_le
      omega
    · exact ih hacc.2 h.2 ref' hr hs

end NodesDesc

/-- The cached communicators are right where every triplet has stride one or minus one. -/
theorem subcommAgrees_iff (n : NodesDesc) (hpos : ∀ s ∈ n.sizes, 0 < s) (refs : List NodesRef)
    (hlen : refs.length = n.sizes.length) (refs' : List NodesRef)
    (hv : validateRefs n.sizes refs = .ok refs') (hc : n.checkSubcomm refs' = true) :
    n.SubcommAgrees refs' ↔ ∀ ref ∈ refs, ref.shrink = false → |ref.stride| = 1 := by
  obtain ⟨hn, hval⟩ := validateRefs_ok hlen hv
  have hunit : (∀ ref ∈ refs, ref.shrink = false → |ref.stride| = 1) ↔
      ∀ ref ∈ refs', ref.shrink = false → ref.stride = 1 := by
    clear hlen hv hc hn
    induction hval with
    | nil => simp
    | @cons ref ref' refs refs' h _ ih =>
      obtain ⟨h1, h2⟩ := h
      rw [List.forall_mem_cons, List.forall_mem_cons, ih, h1]
      apply and_congr_left
      intro _
      exact ⟨fun h hs => (h2 hs).trans (h hs), fun h hs => (h2 hs).symm.trans (h hs)⟩
  rw [hunit]
  constructor
  · intro h
    simp only [NodesDesc.checkSubcomm, decide_eq_true_eq] at hc
    exact NodesDesc.unit_of_corners hn hc.2 (h.corners hn hpos)
  · exact NodesDesc.subcommAgrees_of_unit hn hc

/-- A slice of a five by four node array, taken backwards. -/
theorem subcommAgrees_backward :
    (NodesDesc.mk 0 .entire [5, 4]).SubcommAgrees [⟨true, 0, 0, -1⟩, ⟨false, 0, 3, 1⟩] := by
  have h := subcommAgrees_iff ⟨0, .entire, [5, 4]⟩ (by decide)
    [⟨true, 0, 0, -1⟩, ⟨false, 4, 1, -1⟩] rfl _ rfl (by decide)
  exact h.mpr (by decide)

/-- Every other node of four: two nodes, but the communicator of each has one. -/
theorem subcomm_two_of_four :
    validateRefs [4] [⟨false, 1, 3, 2⟩] = .ok [⟨false, 0, 2, 2⟩] ∧
      (NodesDesc.mk 0 .entire [4]).checkSubcomm [⟨false, 0, 2, 2⟩] = true ∧
      ¬ (NodesDesc.mk 0 .entire [4]).SubcommAgrees [⟨false, 0, 2, 2⟩] := by
  refine ⟨by decide, by decide, fun h => ?_⟩
  have := (h 0 (by decide) (by decide)).2
  revert this
  decide

end OmniCompiler.Xmp

import OmniCompiler.Arithmetic.Progression
import OmniCompiler.Xmp.ArrayBuilt

/-!
# The parts of an aligned dimension

What `_XMP_align_array_BLOCK`, `_XMP_align_array_GBLOCK` and `_XMP_align_array_CYCLIC` leave on the
ranks of one node dimension, beside the elements that each rank owns. The two contiguous formats cut
the chunk of the template at the array bounds; the cyclic one computes first element and size with a
truncating division.
-/
namespace OmniCompiler.Xmp

open MachineInt BlockCyclic OwnedCount Progression SmallFin

variable {k d n : ℕ}

/-- The descriptors of all ranks after one dimension is aligned: every rank makes the call on the
descriptor that `_XMP_init_array_desc` has given it. -/
structure AlignedRanks {P : ℕ} (tr : Fin P → Template d n) (i : Fin k) (lower upper : ℤ)
    (call : XmpArray k d n → Except String (XmpArray k d n)) (ar : Fin P → XmpArray k d n) :
    Prop where
  le : lower ≤ upper
  run : ∀ r, ∃ a : XmpArray k d n, a.alignTemplate = tr r ∧ a.isAllocated = (tr r).isOwner ∧
    (a.info i).serLower = lower ∧ (a.info i).serUpper = upper ∧ call a = .ok (ar r)

/-- The array indices that the chunk of the template holds. -/
def preimage (t : Template d n) (templateIndex : Fin d) (sub lower upper : ℤ) : Set ℤ :=
  {g | lower ≤ g ∧ g ≤ upper ∧ g + sub ∈ chunkSet t templateIndex}

/-- The members that one call leaves, on a node that owns a part of the template and on one that
does not. -/
theorem alignArrayWith_written {a a' : XmpArray k d n} {i : Fin k} {ti : Fin d} {sub : ℤ}
    {manner : AlignManner} {regular : Bool} {members : ArrayInfo d × Bool}
    (h : alignArrayWith a i ti sub manner regular members = .ok a') :
    AlignsWithin (a.alignTemplate.info ti) (a.info i) sub ∧
    (a.alignTemplate.isOwner = true → a'.isAllocated = (a.isAllocated && members.2) ∧
      (a'.info i).parLower = members.1.parLower ∧ (a'.info i).parUpper = members.1.parUpper ∧
      (a'.info i).parStride = members.1.parStride ∧ (a'.info i).parSize = members.1.parSize) ∧
    (a.alignTemplate.isOwner = false → a'.isAllocated = a.isAllocated) := by
  unfold alignArrayWith at h
  dsimp only at h
  split_ifs at h with hwithin howner
  · cases h
    refine ⟨hwithin, fun _ => ?_, fun hno => absurd hno (by simp [howner])⟩
    simp [XmpArray.setInfo]
  · cases h
    refine ⟨hwithin, fun hyes => absurd hyes howner, fun _ => ?_⟩
    simp [XmpArray.setInfo]

/-! ## Contiguous chunks -/

theorem contiguousInfo_spec {ai : ArrayInfo d} {chunk : TemplateChunk n} {sub : ℤ}
    (hchunk : chunk.parLower ≤ chunk.parUpper) :
    ((contiguousInfo ai chunk sub).2 = true ↔
      max ai.serLower (chunk.parLower - sub) ≤ min ai.serUpper (chunk.parUpper - sub)) ∧
    ((contiguousInfo ai chunk sub).2 = true →
      (contiguousInfo ai chunk sub).1.parLower = max ai.serLower (chunk.parLower - sub) ∧
      (contiguousInfo ai chunk sub).1.parUpper = min ai.serUpper (chunk.parUpper - sub) ∧
      (contiguousInfo ai chunk sub).1.parSize =
        min ai.serUpper (chunk.parUpper - sub) - max ai.serLower (chunk.parLower - sub) + 1) := by
  have hle := ai.lower_le_upper
  unfold contiguousInfo
  simp only [countTriplet, Int.tdiv_one]
  split_ifs <;> simp <;> omega

structure IntervalChunk (t : Template d n) (ti : Fin d) : Prop where
  le : t.isOwner = true → (t.chunk ti).parLower ≤ (t.chunk ti).parUpper
  mem : ∀ g, g ∈ chunkSet t ti ↔
    t.isOwner = true ∧ (t.chunk ti).parLower ≤ g ∧ g ≤ (t.chunk ti).parUpper

theorem BlockChunk.intervalChunk {ti : TemplateInfo} {ni : NodesInfo} {t : Template d n} {i : Fin d}
    (h : BlockChunk ti ni t i) : IntervalChunk t i := by
  have hN := ti.serUpper_eq
  have hW := ceilDiv_pos ti.serSize_pos ni.size_pos
  have hr1 : ((ni.rank : ℤ) + 1) * ceilDiv ti.serSize ni.size =
      ni.rank * ceilDiv ti.serSize ni.size + ceilDiv ti.serSize ni.size := by ring
  refine ⟨fun ho => ?_, fun g => ?_⟩
  · have hlt := h.isOwner.mp ho
    rw [h.lower, h.upper ho, hr1, le_min_iff]
    omega
  · rw [chunkSet]
    split_ifs with ho
    · rw [h.stride, h.width, mem_tripletSet_one, h.info, h.upper ho, le_min_iff]
      simp only [ho, true_and]
      tauto
    · simp [ho]

theorem GblockChunk.intervalChunk {ti : TemplateInfo} {ni : NodesInfo}
    {t : Template d n} {i : Fin d}
    {m : ℕ → ℤ} (h : GblockChunk m ti ni t i) (hm : 0 ≤ m ni.rank) : IntervalChunk t i := by
  refine ⟨fun ho => ?_, fun g => ?_⟩
  · obtain ⟨hne, hle⟩ := h.isOwner.mp ho
    obtain ⟨hl, hu⟩ := h.bounds ho
    rw [hl, hu, le_min_iff, rsumArray]
    omega
  · rw [chunkSet]
    split_ifs with ho
    · rw [h.stride, h.width, mem_tripletSet_one, h.info, (h.bounds ho).2, le_min_iff]
      simp only [ho, true_and]
      tauto
    · simp [ho]

/-- The call that aligns with a dimension of a contiguous format. -/
inductive ContiguousCall (P : ℕ) (i : Fin k) (ti : Fin d) (sub : ℤ) :
    DistFormat → (XmpArray k d n → Except String (XmpArray k d n)) → Prop where
  | block : ContiguousCall P i ti sub .block fun a => alignArrayBlock a i ti sub
  | gblock (m : ℕ → ℤ) (hm : ∀ r < P, 0 ≤ m r) :
    ContiguousCall P i ti sub (.gblock (some m)) fun a => alignArrayGblock a i ti sub

structure ContiguousPart (t : Template d n) (ti : Fin d) (sub lower upper : ℤ) (i : Fin k)
    (a : XmpArray k d n) : Prop where
  isAllocated : a.isAllocated = true ↔ (preimage t ti sub lower upper).Nonempty
  interval : a.isAllocated = true →
    Set.Icc (a.info i).parLower (a.info i).parUpper = preimage t ti sub lower upper
  size : a.isAllocated = true →
    (a.info i).parSize = (a.info i).parUpper - (a.info i).parLower + 1

theorem contiguousPart_of_run {a a' : XmpArray k d n} {i : Fin k} {ti : Fin d} {sub lower upper : ℤ}
    {manner : AlignManner} {regular : Bool} (hl : (a.info i).serLower = lower)
    (hu : (a.info i).serUpper = upper) (halloc : a.isAllocated = a.alignTemplate.isOwner)
    (hchunk : IntervalChunk a.alignTemplate ti)
    (h : alignArrayWith a i ti sub manner regular
      (contiguousInfo (a.info i) (a.alignTemplate.chunk ti) sub) = .ok a') :
    ContiguousPart a.alignTemplate ti sub lower upper i a' := by
  obtain ⟨-, howner, hnot⟩ := alignArrayWith_written h
  cases ho : a.alignTemplate.isOwner with
  | false =>
    have hflag : a'.isAllocated = false := by rw [hnot ho, halloc, ho]
    have hempty : preimage a.alignTemplate ti sub lower upper = ∅ := by
      ext g
      simp [preimage, hchunk.mem, ho]
    refine ⟨?_, fun hyes => ?_, fun hyes => ?_⟩
    · simp [hflag, hempty]
    · simp [hflag] at hyes
    · simp [hflag] at hyes
  | true =>
    obtain ⟨hflag, hpl, hpu, -, hps⟩ := howner ho
    obtain ⟨hiff, hmembers⟩ := @contiguousInfo_spec d n (a.info i) _ sub (hchunk.le ho)
    rw [hl, hu] at hiff hmembers
    rw [halloc, ho, Bool.true_and] at hflag
    have hset : preimage a.alignTemplate ti sub lower upper =
        Set.Icc (max lower ((a.alignTemplate.chunk ti).parLower - sub))
          (min upper ((a.alignTemplate.chunk ti).parUpper - sub)) := by
      ext g
      simp only [preimage, Set.mem_ofPred_eq, hchunk.mem, ho, true_and, Set.mem_Icc, max_le_iff,
        le_min_iff]
      constructor
      · rintro ⟨h1, h2, h3, h4⟩
        omega
      · rintro ⟨⟨h1, h2⟩, h3, h4⟩
        omega
    refine ⟨?_, fun hyes => ?_, fun hyes => ?_⟩
    · rw [hflag, hiff, hset, Set.nonempty_Icc]
    · obtain ⟨hml, hmu, -⟩ := hmembers (hflag ▸ hyes)
      rw [hset, hpl, hpu, hml, hmu]
    · obtain ⟨hml, hmu, hms⟩ := hmembers (hflag ▸ hyes)
      rw [hps, hpl, hpu, hml, hmu, hms]

section Contiguous

variable {t : Template d n} {ti : Fin d} {nodes : Nodes n} {j : Fin n} {fmt : DistFormat}
  {tr : Fin (nodes.info j).size → Template d n} {i : Fin k} {sub lower upper : ℤ}
  {call : XmpArray k d n → Except String (XmpArray k d n)}
  {ar : Fin (nodes.info j).size → XmpArray k d n}

theorem ContiguousCall.intervalChunk (hc : ContiguousCall (nodes.info j).size i ti sub fmt call)
    (h : Distributed t ti nodes j fmt tr) (r : Fin (nodes.info j).size) :
    IntervalChunk (tr r) ti := by
  cases hc with
  | block => exact (h.block r).intervalChunk
  | gblock m hm => exact (h.gblock r).intervalChunk (hm r r.isLt)

theorem contiguousPart (hc : ContiguousCall (nodes.info j).size i ti sub fmt call)
    (h : Distributed t ti nodes j fmt tr) (ha : AlignedRanks tr i lower upper call ar)
    (r : Fin (nodes.info j).size) : ContiguousPart (tr r) ti sub lower upper i (ar r) := by
  have hchunk := hc.intervalChunk h r
  obtain ⟨a, htempl, halloc, hl, hu, hok⟩ := ha.run r
  rw [← htempl] at hchunk halloc ⊢
  cases hc with
  | block => exact contiguousPart_of_run hl hu halloc hchunk hok
  | gblock m hm => exact contiguousPart_of_run hl hu halloc hchunk hok

theorem AlignedRanks.within (hc : ContiguousCall (nodes.info j).size i ti sub fmt call)
    (h : Distributed t ti nodes j fmt tr) (ha : AlignedRanks tr i lower upper call ar) :
    (t.info ti).serLower ≤ lower + sub ∧ upper + sub ≤ (t.info ti).serUpper := by
  obtain ⟨a, htempl, -, hl, hu, hok⟩ := ha.run (nodes.info j).rank
  have hinfo : (tr (nodes.info j).rank).info ti = t.info ti := by
    cases hc with
    | block => exact (h.block _).info
    | gblock m hm => exact (h.gblock _).info
  rw [← hl, ← hu, ← hinfo, ← htempl]
  cases hc with
  | block => exact (alignArrayWith_written hok).1
  | gblock m hm => exact (alignArrayWith_written hok).1

theorem existsUnique_preimage (hc : ContiguousCall (nodes.info j).size i ti sub fmt call)
    (h : Distributed t ti nodes j fmt tr) (ha : AlignedRanks tr i lower upper call ar) {g : ℤ}
    (hg : lower ≤ g ∧ g ≤ upper) : ∃! r, g ∈ preimage (tr r) ti sub lower upper := by
  have hw := ha.within hc h
  have hcontains : (t.info ti).Contains (g + sub) := ⟨by omega, by omega⟩
  have hmem : ∀ r, g ∈ preimage (tr r) ti sub lower upper ↔
      Owned (t.info ti) ⟨_, r, (nodes.info j).size_lt⟩ fmt (g + sub) := by
    intro r
    simp only [preimage, Set.mem_ofPred_eq, hg, true_and]
    cases hc with
    | block => rw [(h.block r).mem_chunkSet, and_iff_right hcontains]
    | gblock m hm =>
      rw [(h.gblock r).mem_chunkSet_of_nonneg hm, and_iff_right hcontains]
  simp only [hmem]
  cases hc with
  | block => exact h.existsUnique_owned (Or.inl (by decide)) (fun m hm => by cases hm) hcontains
  | gblock m hm =>
    refine h.existsUnique_owned (Or.inr ⟨m, rfl⟩) (fun m' hm' => ?_) hcontains
    cases hm'
    exact hm

/-- The ranks on which the array stays allocated partition it. -/
theorem alignContiguous_partition (hc : ContiguousCall (nodes.info j).size i ti sub fmt call)
    (h : Distributed t ti nodes j fmt tr) (ha : AlignedRanks tr i lower upper call ar) :
    (∀ r, ((ar r).isAllocated = true ↔ (preimage (tr r) ti sub lower upper).Nonempty) ∧
      ((ar r).isAllocated = true →
        Set.Icc ((ar r).info i).parLower ((ar r).info i).parUpper =
            preimage (tr r) ti sub lower upper ∧
          ((ar r).info i).parSize = ((ar r).info i).parUpper - ((ar r).info i).parLower + 1)) ∧
    (∀ r r', r ≠ r' → (ar r).isAllocated = true → (ar r').isAllocated = true →
      Disjoint (Set.Icc ((ar r).info i).parLower ((ar r).info i).parUpper)
        (Set.Icc ((ar r').info i).parLower ((ar r').info i).parUpper)) ∧
    (⋃ r ∈ {r | (ar r).isAllocated = true},
      Set.Icc ((ar r).info i).parLower ((ar r).info i).parUpper) = Set.Icc lower upper ∧
    ∑ r with (ar r).isAllocated = true, ((ar r).info i).parSize = upper - lower + 1 := by
  have hpart := contiguousPart hc h ha
  have hunique := fun {g : ℤ} => @existsUnique_preimage _ _ _ _ _ _ _ _ _ _ _ _ _ _ _ hc h ha g
  have hle := ha.le
  refine ⟨fun r => ⟨(hpart r).isAllocated, fun hr => ⟨(hpart r).interval hr, (hpart r).size hr⟩⟩,
    fun r r' hne hr hr' => ?_, ?_, ?_⟩
  · rw [(hpart r).interval hr, (hpart r').interval hr']
    refine Set.disjoint_left.mpr fun g hg hg' => ?_
    exact hne ((hunique ⟨hg.1, hg.2.1⟩).unique hg hg')
  · ext g
    simp only [Set.mem_iUnion, Set.mem_ofPred_eq, Set.mem_Icc]
    constructor
    · rintro ⟨r, hr, hg⟩
      have hmem := ((hpart r).interval hr).subset (Set.mem_Icc.mpr hg)
      exact ⟨hmem.1, hmem.2.1⟩
    · intro hg
      obtain ⟨r, hr, -⟩ := hunique hg
      have halloc := (hpart r).isAllocated.mpr ⟨g, hr⟩
      exact ⟨r, halloc, Set.mem_Icc.mp (((hpart r).interval halloc).superset hr)⟩
  · -- count the elements of the parts
    have hcount : ∀ r, count (fun g => g ∈ Set.Icc ((ar r).info i).parLower
        ((ar r).info i).parUpper ∧ (ar r).isAllocated = true) lower (upper + 1) =
        if (ar r).isAllocated = true then ((ar r).info i).parSize else 0 := by
      intro r
      split_ifs with hr
      · have hicc := (hpart r).interval hr
        obtain ⟨g, hg⟩ := (hpart r).isAllocated.mp hr
        have hb : ∀ x, x ∈ Set.Icc ((ar r).info i).parLower ((ar r).info i).parUpper →
            lower ≤ x ∧ x ≤ upper := fun x hx => ⟨(hicc.subset hx).1, (hicc.subset hx).2.1⟩
        have hgm := Set.mem_Icc.mp (hicc.superset hg)
        have h1 := hb _ (Set.left_mem_Icc.mpr (hgm.1.trans hgm.2))
        have h2 := hb _ (Set.right_mem_Icc.mpr (hgm.1.trans hgm.2))
        have hcongr : ∀ x, (x ∈ Set.Icc ((ar r).info i).parLower ((ar r).info i).parUpper ∧
            (ar r).isAllocated = true) ↔
              ((ar r).info i).parLower ≤ x ∧ x < ((ar r).info i).parUpper + 1 := by
          intro x
          rw [Set.mem_Icc, and_iff_left hr, Int.lt_add_one_iff]
        rw [count_congr hcongr, count_block _ _ (by omega), (hpart r).size hr]
        omega
      · have hcongr : ∀ x, (x ∈ Set.Icc ((ar r).info i).parLower ((ar r).info i).parUpper ∧
            (ar r).isAllocated = true) ↔ (0 : ℤ) ≤ x ∧ x < 0 := by
          intro x
          exact ⟨fun hx => absurd hx.2 hr, fun hx => absurd hx.2 (by omega)⟩
        rw [count_congr hcongr, count_block _ _ (by omega)]
        omega
    rw [Finset.sum_filter, ← Finset.sum_congr rfl fun r _ => hcount r,
      sum_count (by omega) fun g h0 h1 => ?_]
    · ring
    · obtain ⟨r, hr, huniq⟩ := hunique ⟨h0, Int.lt_add_one_iff.mp h1⟩
      have halloc := (hpart r).isAllocated.mpr ⟨g, hr⟩
      refine ⟨r, ⟨((hpart r).interval halloc).superset hr, halloc⟩, fun r' hr' => ?_⟩
      exact huniq r' (((hpart r').interval hr'.2).subset hr'.1)

end Contiguous

def lineArray {P : ℕ} (tr : Fin P → Template 1 1) (lower upper : ℤ) (h : lower ≤ upper)
    (r : Fin P) :
    XmpArray 1 1 1 :=
  ⟨(tr r).isOwner, tr r, fun _ => initArrayInfo lower upper h⟩

/-- The ranks of `p(4)` with `t(0:9)` in blocks of three and `a(2:5)` aligned with it: the array is
on the first two ranks. -/
theorem alignContiguous_partition_four :
    let nodes := lineNodes 4 (by decide)
    let t := lineTemplate 0 9 (by decide) nodes
    let tr : Fin 4 → Template 1 1 := fun r =>
      distTemplateBlock (initTemplateChunk t (nodes.onRank 0 r) fun _ => default) 0 0
    let ar : Fin 4 → XmpArray 1 1 1 := fun r =>
      (alignArrayBlock (lineArray tr 2 5 (by decide) r) 0 0 0).toOption.getD
        (lineArray tr 2 5 (by decide) r)
    ∑ r with (ar r).isAllocated = true, ((ar r).info 0).parSize = 4 := by
  intro nodes t tr ar
  have h : Distributed t 0 nodes 0 .block tr := ⟨rfl, fun _ => ⟨fun _ => default, rfl⟩⟩
  have ha : AlignedRanks tr 0 2 5 (fun a => alignArrayBlock a 0 0 0) ar :=
    ⟨by decide, fun r => ⟨lineArray tr 2 5 (by decide) r, rfl, rfl, rfl, rfl, rfl⟩⟩
  exact (alignContiguous_partition .block h ha).2.2.2

/-! ## Cyclic dimensions -/

theorem tdiv_eq_zero_of_neg {y c : ℤ} (hy : y ≤ 0) (hc : -c < y) : y.tdiv c = 0 := by
  have h := Int.tdiv_eq_zero_of_lt (show 0 ≤ -y by omega) (show -y < c by omega)
  rw [Int.neg_tdiv] at h
  omega

section Cyclic

variable {ti : TemplateInfo} {ai : ArrayInfo d} {chunk : TemplateChunk n} {sub : ℤ} {P r : ℕ}

/-- The members of a cyclic dimension are those of the elements of the rank. -/
structure CyclicMembers (a : ArrayInfo d) (owned : ℤ → Prop) [DecidablePred owned]
    (lower upper : ℤ) : Prop where
  elements : strided a.parLower a.parUpper a.parStride = {g | lower ≤ g ∧ g ≤ upper ∧ owned g}
  size : a.parSize = count owned lower (upper + 1)

/-- The first element from the start of the array on, and how many strides fit. -/
theorem cyclicInfo_members (hP : 0 < P) (hstride : chunk.parStride = P)
    (hsize : chunk.nodesSize = P)
    (hrank : chunk.nodesRank = r) (hlow : ti.serLower ≤ ai.serLower + sub) :
    (cyclicInfo ti ai chunk sub).parLower =
        ai.serLower + (r - (ai.serLower + sub - ti.serLower)) % P ∧
      (cyclicInfo ti ai chunk sub).parStride = P ∧
      (cyclicInfo ti ai chunk sub).parSize =
        (ai.serUpper - (cyclicInfo ti ai chunk sub).parLower).tdiv P + 1 ∧
      (cyclicInfo ti ai chunk sub).parUpper = (cyclicInfo ti ai chunk sub).parLower +
        (ai.serUpper - (cyclicInfo ti ai chunk sub).parLower).tdiv P * P := by
  have hP' : (0 : ℤ) < P := by omega
  have hmod : modi ((r : ℤ) - (ai.serLower + sub - ti.serLower).tmod P) P =
      (r - (ai.serLower + sub - ti.serLower)) % P := by
    rw [modi_eq_emod hP', Int.tmod_eq_emod_of_nonneg (by omega), Int.sub_emod_emod]
  simp only [cyclicInfo, hstride, hsize, hrank, hmod]
  exact ⟨add_comm _ _, trivial, trivial, trivial⟩

theorem cyclicInfo_right_iff (hr : r < P) (hstride : chunk.parStride = P)
    (hsize : chunk.nodesSize = P) (hrank : chunk.nodesRank = r)
    (hlow : ti.serLower ≤ ai.serLower + sub) :
    CyclicMembers (cyclicInfo ti ai chunk sub) (fun g => owner 1 P (g + sub - ti.serLower) = r)
        ai.serLower ai.serUpper ↔
      ∃ g, ai.serLower ≤ g ∧ g ≤ ai.serUpper ∧ owner 1 P (g + sub - ti.serLower) = r := by
  have hP : (0 : ℤ) < P := by omega
  have hle := ai.lower_le_upper
  obtain ⟨hpl, hst, hps, hpu⟩ := cyclicInfo_members (by omega) hstride hsize hrank hlow
  obtain ⟨l, hl⟩ : ∃ l, l = ai.serLower + sub - ti.serLower := ⟨_, rfl⟩
  obtain ⟨m, hm⟩ : ∃ m, m = ((r : ℤ) - l) % P := ⟨_, rfl⟩
  have hm0 : 0 ≤ m := hm ▸ Int.emod_nonneg _ hP.ne'
  have hm1 : m < P := hm ▸ Int.emod_lt_of_pos _ hP
  rw [← hl, ← hm] at hpl
  rw [hpl] at hps hpu
  -- no element of the rank comes before the first one
  have hfirst : ∀ g, ai.serLower ≤ g → owner 1 P (g + sub - ti.serLower) = r →
      ai.serLower + m ≤ g := by
    intro g hg hown
    have h := firstBlock_le one_pos hP (show l ≤ g + sub - ti.serLower by omega) hown
    simp only [Int.ediv_one, mul_one, ← hm] at h
    omega
  have hclass : ∀ g, owner 1 P (g + sub - ti.serLower) = r ↔ (P : ℤ) ∣ g - (ai.serLower + m) := by
    intro g
    have hplace : (ai.serLower + m + sub - ti.serLower) % (P : ℤ) = r := by
      have heq : ai.serLower + m + sub - ti.serLower = l + m := by rw [hl]; ring
      rw [heq, hm, Int.add_emod_emod, add_sub_cancel, Int.emod_eq_of_lt (by omega) (by omega)]
    have hdiff : g + sub - ti.serLower - (ai.serLower + m + sub - ti.serLower) =
        g - (ai.serLower + m) := by ring
    rw [owner, Int.ediv_one]
    nth_rewrite 1 [← hplace]
    rw [Int.emod_eq_emod_iff_emod_sub_eq_zero, hdiff, Int.dvd_iff_emod_eq_zero]
  constructor
  · intro h
    by_contra hnone
    push Not at hnone
    have hzero : count (fun g => owner 1 P (g + sub - ti.serLower) = r) ai.serLower
        (ai.serUpper + 1) = 0 :=
      count_eq_zero fun g h0 h1 => hnone g h0 (by omega)
    have hout : ai.serUpper < ai.serLower + m := by
      by_contra hin
      exact hnone (ai.serLower + m) (by omega) (by omega) ((hclass _).mpr (by simp))
    have hsz := h.size
    rw [hzero, hps, tdiv_eq_zero_of_neg (by omega) (by omega)] at hsz
    omega
  · rintro ⟨g, hg0, hg1, hown⟩
    have hin := (hfirst g hg0 hown).trans hg1
    have hy : 0 ≤ ai.serUpper - (ai.serLower + m) := by omega
    have hdm := Int.emod_add_mul_ediv (ai.serUpper - (ai.serLower + m)) P
    have he0 := Int.emod_nonneg (ai.serUpper - (ai.serLower + m)) hP.ne'
    have he1 := Int.emod_lt_of_pos (ai.serUpper - (ai.serLower + m)) hP
    rw [Int.tdiv_eq_ediv_of_nonneg hy] at hps hpu
    constructor
    · ext x
      simp only [strided, hpl, hst, hpu, Set.mem_ofPred_eq, hclass]
      constructor
      · rintro ⟨h0, h1, h2⟩
        refine ⟨by omega, ?_, h2⟩
        linarith
      · rintro ⟨h0, h1, h2⟩
        have hx := hfirst x h0 ((hclass x).mpr h2)
        refine ⟨hx, ?_, h2⟩
        obtain ⟨c, hc⟩ := h2
        have hcle : c ≤ (ai.serUpper - (ai.serLower + m)) / P := by
          rw [Int.le_ediv_iff_mul_le hP]
          linarith
        have := mul_le_mul_of_nonneg_left hcle hP.le
        linarith
    · rw [hps, count_position (fun x => owner 1 P x = r),
        count_owner_from one_pos hP (by omega) (by omega) (by omega), ← hl]
      have hend : ai.serUpper + sub - ti.serLower + 1 - 1 - (l + m) =
          ai.serUpper - (ai.serLower + m) := by rw [hl]; ring
      simp only [Int.ediv_one, mul_one, ← hm, hend]
      omega

end Cyclic

section CyclicRanks

variable {t : Template d n} {ti : Fin d} {nodes : Nodes n} {j : Fin n}
  {tr : Fin (nodes.info j).size → Template d n} {i : Fin k} {sub lower upper : ℤ}
  {ar : Fin (nodes.info j).size → XmpArray k d n}

/-- What a call of a cyclic format leaves on one rank: where the array stays allocated, the members
of the elements that the rank owns, and elsewhere there are none. -/
def DealtPart (owned : ℤ → Prop) [DecidablePred owned] (right : ArrayInfo d → Prop)
    (lower upper : ℤ) (i : Fin k) (a : XmpArray k d n) : Prop :=
  (a.isAllocated = true → right (a.info i)) ∧
    (a.isAllocated = false → ∀ g, lower ≤ g → g ≤ upper → ¬ owned g)

theorem sum_parSize {P : ℕ} {own : ℤ → ℤ} {ar : Fin P → XmpArray k d n} (hle : lower ≤ upper)
    (hrange : ∀ g, lower ≤ g → g ≤ upper → 0 ≤ own g ∧ own g < P)
    (h : ∀ r : Fin P, DealtPart (fun g => own g = (r : ℕ)) (fun ai =>
      ai.parSize = count (fun g => own g = (r : ℕ)) lower (upper + 1)) lower upper i (ar r)) :
    ∑ r with (ar r).isAllocated = true, ((ar r).info i).parSize = upper - lower + 1 := by
  have hsize : ∀ r, (if (ar r).isAllocated = true then ((ar r).info i).parSize else 0) =
      count (fun g => own g = (r : ℕ)) lower (upper + 1) := by
    intro r
    split_ifs with halloc
    · exact (h r).1 halloc
    · refine (count_eq_zero fun g h0 h1 => ?_).symm
      exact (h r).2 (by simpa using halloc) g h0 (by omega)
  rw [Finset.sum_filter, Finset.sum_congr rfl fun r _ => hsize r, sum_count (by omega)]
  · ring
  · intro g h0 h1
    obtain ⟨hown0, hown1⟩ := hrange g h0 (by omega)
    refine ⟨⟨(own g).toNat, by omega⟩, by simp [hown0], fun r hr => Fin.ext ?_⟩
    simp only at hr
    simp [hr]

theorem dealtPart_iff {P : ℕ} {r : Fin P} {w : ℤ} {tinfo : TemplateInfo} {a a' : XmpArray k d n}
    {manner : AlignManner} {regular : Bool} {members : ArrayInfo d} {right : ArrayInfo d → Prop}
    (hw : 0 < w) (hs : InInt (P * w)) {hP : P < 2 ^ 31}
    (hchunk : CyclicChunk w tinfo ⟨P, r, hP⟩ a.alignTemplate ti)
    (halloc : a.isAllocated = a.alignTemplate.isOwner) (hl : (a.info i).serLower = lower)
    (hu : (a.info i).serUpper = upper)
    (h : alignArrayWith a i ti sub manner regular (members, true) = .ok a') :
    DealtPart (fun g => owner w P (g + sub - tinfo.serLower) = (r : ℕ)) right lower upper i a' ↔
      (((r : ℕ) : ℤ) * w < tinfo.serSize → right (a'.info i)) := by
  obtain ⟨⟨hlow, hup⟩, howner, hnot⟩ := alignArrayWith_written h
  rw [hchunk.info, hl] at hlow
  rw [hchunk.info, hu] at hup
  have hiff := hchunk.isOwner
  have hflag : a'.isAllocated = a.alignTemplate.isOwner := by
    cases ho : a.alignTemplate.isOwner with
    | true => rw [(howner ho).1, halloc, ho, Bool.and_self]
    | false => rw [hnot ho, halloc, ho]
  unfold DealtPart
  rw [hflag, hiff, and_iff_left]
  intro ho g hg0 hg1 hown
  have hmem := (hchunk.mem_chunkSet hw hs (g + sub)).mpr ⟨⟨by omega, by omega⟩, hown⟩
  rw [chunkSet, ho] at hmem
  simp at hmem

theorem CyclicMembers.congr {a b : ArrayInfo d} {owned : ℤ → Prop} [DecidablePred owned]
    (h : a.parLower = b.parLower ∧ a.parUpper = b.parUpper ∧ a.parStride = b.parStride ∧
      a.parSize = b.parSize) :
    CyclicMembers a owned lower upper ↔ CyclicMembers b owned lower upper := by
  obtain ⟨h1, h2, h3, h4⟩ := h
  constructor
  · rintro ⟨helem, hsize⟩
    exact ⟨by rw [← h1, ← h2, ← h3, helem], by rw [← h4, hsize]⟩
  · rintro ⟨helem, hsize⟩
    exact ⟨by rw [h1, h2, h3, helem], by rw [h4, hsize]⟩

/-- Every rank that owns an index of the template owns one of an interval `[l, u]` of it. -/
theorem cyclic_ranks_iff {P : ℕ} {T l u : ℤ} (hP : 0 < P) (hl : 0 ≤ l) (hlu : l ≤ u) (hu : u < T) :
    (∀ r : Fin P, ((r : ℕ) : ℤ) < T → ∃ x, l ≤ x ∧ x ≤ u ∧ owner 1 P x = (r : ℕ)) ↔
      (P : ℤ) ≤ u - l + 1 ∨ u - l + 1 = T := by
  have hP' : (0 : ℤ) < P := by omega
  constructor
  · intro h
    by_contra hc
    push Not at hc
    -- the index after the interval, or before it, is on a rank without an element
    have hmiss : ∀ x, 0 ≤ x → x < T → x = u + 1 ∨ x = l - 1 → False := by
      intro x hx0 hxT hx
      have hr0 := Int.emod_nonneg x hP'.ne'
      have hr1 := Int.emod_lt_of_pos x hP'
      have hdm := Int.emod_add_mul_ediv x P
      have hq := mul_nonneg hP'.le (Int.ediv_nonneg hx0 hP'.le)
      obtain ⟨y, hy0, hy1, hy⟩ := h ⟨(x % P).toNat, by omega⟩ (by simp only; omega)
      simp only [owner, Int.ediv_one, Int.toNat_of_nonneg hr0] at hy
      have hdvd := Int.dvd_of_emod_eq_zero (Int.emod_eq_emod_iff_emod_sub_eq_zero.mp hy)
      have hne : y - x ≠ 0 := by omega
      have habs := Int.le_of_dvd (abs_pos.mpr hne) ((dvd_abs _ _).mpr hdvd)
      rcases hx with rfl | rfl
      · rw [abs_of_nonpos (by omega)] at habs
        omega
      · rw [abs_of_nonneg (by omega)] at habs
        omega
    by_cases hend : u + 1 < T
    · exact hmiss (u + 1) (by omega) hend (Or.inl rfl)
    · exact hmiss (l - 1) (by omega) (by omega) (Or.inr rfl)
  · rintro (hlong | hall) r hr
    · have hm0 := Int.emod_nonneg ((r : ℕ) - l) hP'.ne'
      have hm1 := Int.emod_lt_of_pos ((r : ℕ) - l) hP'
      refine ⟨l + ((r : ℕ) - l) % P, by omega, by omega, ?_⟩
      rw [owner, Int.ediv_one, Int.add_emod_emod, add_sub_cancel]
      exact Int.emod_eq_of_lt (by omega) (by exact_mod_cast r.isLt)
    · refine ⟨(r : ℕ), by omega, by omega, ?_⟩
      rw [owner, Int.ediv_one]
      exact Int.emod_eq_of_lt (by omega) (by exact_mod_cast r.isLt)

/-- A cyclic dimension is described on all ranks unless some rank that owns a part of the template
has no element. -/
theorem alignCyclic_sections_iff (h : Distributed t ti nodes j .cyclic tr)
    (ha : AlignedRanks tr i lower upper (fun a => alignArrayCyclic a i ti sub) ar) :
    (∀ r, DealtPart (fun g => Owned (t.info ti) ⟨_, r, (nodes.info j).size_lt⟩ .cyclic (g + sub))
        (fun ai => CyclicMembers ai
          (fun g => Owned (t.info ti) ⟨_, r, (nodes.info j).size_lt⟩ .cyclic (g + sub)) lower upper)
        lower upper i (ar r)) ∧
      ∑ r with (ar r).isAllocated = true, ((ar r).info i).parSize = upper - lower + 1 ↔
    ((nodes.info j).size : ℤ) ≤ upper - lower + 1 ∨
      upper - lower + 1 = (t.info ti).serSize := by
  have hP := (nodes.info j).size_pos
  have hle := ha.le
  have hN := (t.info ti).serUpper_eq
  have hrank : ∀ r : Fin (nodes.info j).size, (t.info ti).serLower ≤ lower + sub ∧
    upper + sub ≤ (t.info ti).serUpper ∧
      (DealtPart (fun g => owner 1 (nodes.info j).size (g + sub - (t.info ti).serLower) = (r : ℕ))
        (fun ai => CyclicMembers ai (fun g => owner 1 (nodes.info j).size
          (g + sub - (t.info ti).serLower) = (r : ℕ)) lower upper) lower upper i (ar r) ↔
        (((r : ℕ) : ℤ) < (t.info ti).serSize →
          ∃ x, lower + sub - (t.info ti).serLower ≤ x ∧ x ≤ upper + sub - (t.info ti).serLower ∧
            owner 1 (nodes.info j).size x = (r : ℕ))) := by
    intro r
    obtain ⟨a, htempl, halloc, hl, hu, hok⟩ := ha.run r
    have hchunk := h.cyclic r
    rw [← htempl] at hchunk halloc
    obtain ⟨⟨hlow, hup⟩, howner, -⟩ := alignArrayWith_written hok
    rw [hchunk.info] at hlow hup
    have hlow' := hlow
    rw [hl] at hlow'
    rw [hu] at hup
    refine ⟨hlow', hup, ?_⟩
    rw [dealtPart_iff one_pos (nodes.info j).stride_one hchunk halloc hl hu hok, mul_one]
    refine imp_congr_right fun hlt => ?_
    have ho := hchunk.isOwner.mpr (by simpa using hlt)
    have hsize : (a.alignTemplate.chunk ti).nodesSize = (nodes.info j).size := by
      rw [TemplateChunk.nodesSize, hchunk.nodesInfo]
      rfl
    have hnode : (a.alignTemplate.chunk ti).nodesRank = (r : ℕ) := by
      rw [TemplateChunk.nodesRank, hchunk.nodesInfo]
      rfl
    have hinfo : a.alignTemplate.info ti = t.info ti := hchunk.info
    have hright := @cyclicInfo_right_iff d n (t.info ti) (a.info i) (a.alignTemplate.chunk ti) sub
      (nodes.info j).size r r.isLt 
      (by simpa only [mul_one] using hchunk.stride_eq (nodes.info j).stride_one) hsize hnode hlow
    rw [CyclicMembers.congr (howner ho).2, hinfo]
    rw [hl, hu] at hright
    rw [hright]
    constructor
    · rintro ⟨g, h0, h1, h2⟩
      exact ⟨_, by omega, by omega, h2⟩
    · rintro ⟨x, h0, h1, h2⟩
      refine ⟨x - sub + (t.info ti).serLower, by omega, by omega, ?_⟩
      rw [← h2]
      congr 1
      ring
  obtain ⟨hlow, hup, -⟩ := hrank (nodes.info j).rank
  have hbound := @cyclic_ranks_iff (nodes.info j).size (t.info ti).serSize
    (lower + sub - (t.info ti).serLower) (upper + sub - (t.info ti).serLower) (by omega) (by omega)
    (by omega) (by omega)
  have hlen : upper + sub - (t.info ti).serLower - (lower + sub - (t.info ti).serLower) + 1 =
      upper - lower + 1 := by ring
  rw [hlen] at hbound
  rw [← hbound]
  constructor
  · rintro ⟨hparts, -⟩ r
    exact (hrank r).2.2.mp (hparts r)
  · intro hall
    have hparts := fun r => (hrank r).2.2.mpr (hall r)
    refine ⟨hparts, sum_parSize hle (fun g _ _ => ?_) fun r => ⟨fun hr => ((hparts r).1 hr).size,
      (hparts r).2⟩⟩
    exact ⟨Int.emod_nonneg _ hP.ne', Int.emod_lt_of_pos _ hP⟩

/-- The ranks of `p(4)` with `t(0:9)` dealt cyclically, on which `a(lower:upper)` is aligned. -/
def cyclicLine (r : Fin 4) : Template 1 1 :=
  distTemplateCyclic (initTemplateChunk (lineTemplate 0 9 (by decide) (lineNodes 4 (by decide)))
    ((lineNodes 4 (by decide)).onRank 0 r) fun _ => default) 0 0

def alignedCyclicLine (lower upper : ℤ) (h : lower ≤ upper) (r : Fin 4) : XmpArray 1 1 1 :=
  (alignArrayCyclic (lineArray cyclicLine lower upper h r) 0 0 0).toOption.getD
    (lineArray cyclicLine lower upper h r)

theorem alignCyclic_sections_seven :
    ∑ r with (alignedCyclicLine 2 8 (by decide) r).isAllocated = true,
    ((alignedCyclicLine 2 8 (by decide) r).info 0).parSize = 7 := by
  have h : Distributed (lineTemplate 0 9 (by decide) (lineNodes 4 (by decide))) 0
      (lineNodes 4 (by decide)) 0 .cyclic cyclicLine := ⟨rfl, fun _ => ⟨fun _ => default, rfl⟩⟩
  have ha : AlignedRanks cyclicLine 0 2 8 (fun a => alignArrayCyclic a 0 0 0)
      (alignedCyclicLine 2 8 (by decide)) :=
    ⟨by decide, fun r => ⟨lineArray cyclicLine 2 8 (by decide) r, rfl, rfl, rfl, rfl, rfl⟩⟩
  exact ((alignCyclic_sections_iff h ha).mpr (Or.inl (by decide))).2

/-- Two elements on four nodes: the two other ranks also get a size of one. -/
theorem alignCyclic_short : AlignedRanks cyclicLine 0 2 3 (fun a => alignArrayCyclic a 0 0 0)
      (alignedCyclicLine 2 3 (by decide)) ∧
    ∑ r with (alignedCyclicLine 2 3 (by decide) r).isAllocated = true,
      ((alignedCyclicLine 2 3 (by decide) r).info 0).parSize = 4 ∧
    ¬ ∀ r, DealtPart (fun g => Owned (.fixed 0 9 (by decide)) ⟨4, r, by decide⟩ .cyclic (g + 0))
      (fun ai => CyclicMembers ai (fun g =>
        Owned (.fixed 0 9 (by decide)) ⟨4, r, by decide⟩ .cyclic (g + 0)) 2 3)
      2 3 0 (alignedCyclicLine 2 3 (by decide) r) := by
  refine ⟨⟨by decide, fun r => ⟨lineArray cyclicLine 2 3 (by decide) r, rfl, rfl, rfl, rfl, rfl⟩⟩,
    by decide +kernel, fun h => ?_⟩
  have hsize := ((h 0).1 (by decide +kernel)).size
  revert hsize
  decide +kernel

end CyclicRanks

end OmniCompiler.Xmp

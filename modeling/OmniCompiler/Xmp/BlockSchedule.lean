import OmniCompiler.Xmp.LoopSchedule

/-!
# Loops over block, general block and duplicated dimensions

On these formats the local index of a chunk is an offset, so the schedulers visit on
every rank what `Iter.scheduled` says. That list is the serial loop except for the empty
loops of `Iter.Phantom`.
-/
namespace OmniCompiler.Xmp

open MachineInt ForLoop Progression

variable {d n : ℕ}

/-- The global indices visited by the local loop that the scheduler returns. -/
def executed (ser : Iter) (t : Template d n) (i : Fin d) : Except String (List ℤ) :=
  (schedLoopTemplate ser t i).map fun it => it.values.map (l2g · t i)

def DistFormat.BlockType : DistFormat → Prop
  | .block | .duplication | .gblock (some _) => True
  | .cyclic | .blockCyclic _ | .gblock none => False

/-- Every rank runs the iterations it owns in the order of the serial loop, and all
ranks together run each iteration in the template once. Every rank owns the whole of a
duplicated dimension, and one rank alone runs the loop. -/
def ExecutesExactly (ti : TemplateInfo) (ni : NodesInfo) (fmt : DistFormat) (ser : Iter)
    (tr : Fin ni.size → Template d n) (i : Fin d) : Prop :=
  ∃ runs : Fin ni.size → List ℤ, (∀ r, executed ser (tr r) i = .ok (runs r)) ∧
    (∀ r, runs r = ser.values.filter fun g =>
      ti.Contains g ∧ Owned ti ⟨ni.size, r, ni.size_lt⟩ fmt g) ∧
    (fmt ≠ .duplication →
      ((List.finRange ni.size).flatMap runs).Perm (ser.values.filter fun g => ti.Contains g)) ∧
    (fmt = .duplication → ∀ r, runs r = ser.values.filter fun g => ti.Contains g)

/-! ## One rank -/

theorem lcm_one {a : ℤ} (ha : 0 < a) (ha' : InInt a) : lcm a 1 = a := by
  rw [lcm_eq ha one_pos (by rwa [mul_one]), Int.lcm_one, Int.natAbs_of_nonneg ha.le]

theorem cutWidth1_offset {chunk : TemplateChunk n} {gtol f : ℤ → ℤ} {parStep : Iter → Iter → ℤ}
    {norm : Iter} {c : ℤ} (hs : 0 < norm.step) (hs' : InInt norm.step)
    (hstride : chunk.parStride = 1) (hfit : norm.CutFits chunk.parLower chunk.parUpper)
    (hle : chunk.parLower ≤ chunk.parUpper)
    (hg : ∀ x, chunk.parLower ≤ x → x ≤ chunk.parUpper → gtol x = x - c)
    (hst : ∀ par : Iter, par.step = norm.step → parStep norm par = norm.step)
    (hf : ∀ l, f l = c + l) :
    ∃ par, cutWidth1 chunk gtol parStep norm = .ok par ∧
      CutRuns f (fun x => (chunk.parLower ≤ x ∧ x ≤ chunk.parUpper) ∧ norm.Spans x) par := by
  obtain ⟨hnone, hsome⟩ := width1Cut_spec one_pos (by decide) hle (one_dvd _) hfit
  have hprod : InInt (norm.step * 1) := by rwa [mul_one]
  have hmem : ∀ x, x ∈ strided chunk.parLower chunk.parUpper 1 ↔
      chunk.parLower ≤ x ∧ x ≤ chunk.parUpper := fun x => by simp [strided]
  refine ⟨_, by rw [cutWidth1, hstride, schedLoopTemplateWidth1_eq one_pos]; rfl, ?_⟩
  cases hcut : width1Cut norm chunk.parLower chunk.parUpper 1 with
  | none =>
    rintro x ⟨hx, h1, h2, h3⟩
    rw [← hmem] at hx
    rcases hnone hcut with h | h
    · exact (h ▸ (⟨hx, h1, h3⟩ : x ∈ norm.fromInit _) : x ∈ (∅ : Set ℤ))
    · exact (h ▸ (⟨hx, h2, h3⟩ : x ∈ norm.toCond _) : x ∈ (∅ : Set ℤ))
  | some par =>
    have h := hsome par hcut
    have hstep : par.step = norm.step := h.step.trans (lcm_one hs hs')
    have hi := (hmem _).mp h.init.1.1
    have hc := (hmem _).mp h.cond.1.1
    have hspan : ∀ l, Iter.Spans ⟨gtol par.init, gtol par.cond, parStep norm par⟩ l ↔
        par.Spans (c + l) := fun l => by
      rw [Iter.Spans, Iter.Spans, hg _ hi.1 hi.2, hg _ hc.1 hc.2, hst par hstep, hstep,
        show l - (par.init - c) = c + l - par.init by ring]
      dsimp only
      omega
    refine ⟨by simpa [hst par hstep] using hs, ?_, fun a _ b _ hab => by simp only [hf]; omega,
      fun x => ?_⟩
    · dsimp only
      rw [hg _ hi.1 hi.2, hg _ hc.1 hc.2, hst par hstep, sub_sub_sub_cancel_right, ← hstep]
      exact h.step_dvd one_pos hprod
    · dsimp only
      rw [← hmem, ← h.spans_iff one_pos hprod]
      constructor
      · rintro ⟨l, hl, rfl⟩
        rw [hf]
        exact (hspan l).mp hl
      · intro hx
        refine ⟨x - c, (hspan _).mpr ?_, by rw [hf]; ring⟩
        rwa [add_sub_cancel]

theorem schedLoop_not_owner {t : Template d n} (ho : ¬ t.isOwner = true)
    (cut : Iter → Except String (Option Iter)) (ser : Iter) :
    schedLoop t cut ser = .ok .empty := by
  simp [schedLoop, ho]

theorem schedLoop_offset_exec {t : Template d n} {i : Fin d} {gtol f : ℤ → ℤ}
    {parStep : Iter → Iter → ℤ} {ser : Iter} {c : ℤ} {p : ℤ → Prop} [DecidablePred p]
    (hs : ser.step ≠ 0) (hfit : t.isOwner = true → ser.FitsChunk (t.chunk i))
    (hwidth : (t.chunk i).parWidth = 1) (hstride : (t.chunk i).parStride = 1)
    (hchunk : t.isOwner = true → (t.chunk i).parLower ≤ (t.chunk i).parUpper ∧
      (t.chunk i).parUpper ≤ (t.info i).serUpper ∧
      ∀ x, (t.chunk i).parLower ≤ x → x ≤ (t.chunk i).parUpper → gtol x = x - c)
    (hst : ∀ norm par : Iter, par.step = norm.step → parStep norm par = norm.step)
    (hf : ∀ l, f l = c + l) (hp : ∀ x, x ∈ chunkSet t i ↔ p x) :
    (schedLoop t (cutWidth1 (t.chunk i) gtol parStep) ser).map (fun it => it.values.map f) =
      .ok (ser.scheduled.filter p) := by
  by_cases ho : t.isOwner = true
  · obtain ⟨hle, hcut, hg⟩ := hchunk ho
    have hfits := hfit ho
    have habs : InInt |ser.step| := by
      obtain ⟨⟨h0, h1⟩, h2, h3⟩ := hfits.step
      rcases abs_cases ser.step with h | h <;> constructor <;> omega
    obtain ⟨norm, it, -, hspan, hrun, hdir, hmem⟩ := schedLoop_exec ho hs hfits fun norm _ hn hcf =>
      cutWidth1_offset (hn ▸ abs_pos.mpr hs) (hn ▸ habs) hstride hcf hle hg (hst norm) hf
    rw [hrun]
    refine congrArg Except.ok (hdir.eq_of_mem_iff ((Iter.scheduled_direction hs).filter _) ?_)
    intro x
    rw [hmem, hspan, List.mem_filter, decide_eq_true_eq, ← hp, chunkSet, if_pos ho, hstride,
      hwidth, mem_tripletSet_one, and_comm]
    refine and_congr_right fun _ => ?_
    omega
  · have hnil : ser.scheduled.filter (fun x => decide (p x)) = [] := by
      simp [← hp, chunkSet, ho]
    rw [hnil, schedLoop_not_owner ho]
    rfl

section

variable {ti : TemplateInfo} {ni : NodesInfo} {t : Template d n} {i : Fin d} {ser : Iter}

theorem BlockChunk.executed_eq (h : BlockChunk ti ni t i) (hs : ser.step ≠ 0)
    (hfit : t.isOwner = true → ser.FitsChunk (t.chunk i)) :
    executed ser t i =
      .ok (ser.scheduled.filter fun g => ti.Contains g ∧ Owned ti ni .block g) := by
  have hW := ceilDiv_pos ti.serSize_pos ni.size_pos
  have hN := ti.serUpper_eq
  have hr0 : (0 : ℤ) ≤ ni.rank * ceilDiv ti.serSize ni.size := by positivity
  have hr1 : ((ni.rank : ℤ) + 1) * ceilDiv ti.serSize ni.size =
      ni.rank * ceilDiv ti.serSize ni.size + ceilDiv ti.serSize ni.size := by ring
  simp only [executed, schedLoopTemplate, h.manner, schedLoopTemplateBlock]
  refine schedLoop_offset_exec hs hfit h.width h.stride (fun ho => ⟨?_, ?_, fun x hx0 hx1 => ?_⟩)
    (fun _ _ _ => rfl) h.l2g_eq h.mem_chunkSet
  · have hlt := h.isOwner.mp ho
    rw [h.upper ho, h.lower, le_min_iff, hr1]
    omega
  · rw [h.upper ho, h.info]
    exact min_le_left _ _
  · rw [h.upper ho, le_min_iff, hr1] at hx1
    rw [h.lower] at hx0 ⊢
    rw [h.info, h.chunkWidth, Int.tmod_eq_emod_of_nonneg (by omega),
      show x - ti.serLower = x - (ti.serLower + ni.rank * ceilDiv ti.serSize ni.size) +
        ni.rank * ceilDiv ti.serSize ni.size by ring, Int.add_mul_emod_self_right,
      Int.emod_eq_of_lt (by omega) (by omega)]

theorem GblockChunk.executed_eq {m : ℕ → ℤ} (h : GblockChunk m ti ni t i)
    (hm : ∀ k < ni.size, 0 ≤ m k) (hs : ser.step ≠ 0)
    (hfit : t.isOwner = true → ser.FitsChunk (t.chunk i)) :
    executed ser t i =
      .ok (ser.scheduled.filter fun g => ti.Contains g ∧ Owned ti ni (.gblock (some m)) g) := by
  have hstep : rsumArray ti.serLower m (ni.rank + 1) =
      rsumArray ti.serLower m ni.rank + m ni.rank := rfl
  have hnn := hm ni.rank ni.rank.isLt
  simp only [executed, schedLoopTemplate, h.manner, schedLoopTemplateGblock]
  refine schedLoop_offset_exec hs hfit h.width h.stride (fun ho => ⟨?_, ?_, fun x _ _ => ?_⟩)
    (fun _ _ _ => rfl) h.l2g_eq (h.mem_chunkSet_of_nonneg hm)
  · obtain ⟨hne, hle⟩ := h.isOwner.mp ho
    obtain ⟨hl, hu⟩ := h.bounds ho
    rw [hl, hu, le_min_iff]
    omega
  · rw [(h.bounds ho).2, h.info]
    exact min_le_left _ _
  · simp [h.mapping, TemplateChunk.nodesRank, h.nodesInfo]

theorem DuplicationChunk.executed_eq (h : DuplicationChunk ti t i) (hs : ser.step ≠ 0)
    (hfit : t.isOwner = true → ser.FitsChunk (t.chunk i)) :
    executed ser t i = .ok (ser.scheduled.filter fun g => ti.Contains g) := by
  simp only [executed, schedLoopTemplate, h.manner, schedLoopTemplateDuplication]
  refine schedLoop_offset_exec hs hfit h.width h.stride (fun _ => ⟨?_, ?_, fun x _ _ => ?_⟩)
    (fun _ par hpar => hpar) (c := 0) (fun l => ?_) h.mem_chunkSet
  · rw [h.lower, h.upper]
    exact ti.lower_le_upper
  · rw [h.upper, h.info]
  · rw [sub_zero, id]
  · simp [l2g, h.manner]

end

/-! ## All ranks -/

section

variable {t : Template d n} {i : Fin d} {nodes : Nodes n} {j : Fin n} {fmt : DistFormat}
variable {tr : Fin (nodes.info j).size → Template d n}

theorem Distributed.executed_eq (hfmt : fmt.BlockType)
    (hm : fmt.NonnegMapping (nodes.info j).size) (h : Distributed t i nodes j fmt tr) {ser : Iter}
    (hs : ser.step ≠ 0) (r : Fin (nodes.info j).size)
    (hfit : (tr r).isOwner = true → ser.FitsChunk ((tr r).chunk i)) :
    executed ser (tr r) i = .ok (ser.scheduled.filter fun g =>
      (t.info i).Contains g ∧ Owned (t.info i) ⟨_, r, (nodes.info j).size_lt⟩ fmt g) := by
  match fmt with
  | .block => exact (h.block r).executed_eq hs hfit
  | .gblock (some m) => exact (h.gblock r).executed_eq (hm m rfl) hs hfit
  | .duplication =>
    rw [(h.duplication r).executed_eq hs hfit]
    simp [Owned]

theorem Iter.filter_scheduled_eq_iff (ser : Iter) (p : ℤ → Prop) [DecidablePred p] :
    ser.scheduled.filter p = ser.values.filter p ↔ ¬ (ser.Phantom ∧ p ser.init) := by
  by_cases hph : ser.Phantom
  · have hnil : ser.values = [] := by
      refine List.eq_nil_iff_forall_not_mem.mpr fun x hx => ?_
      rcases hph with ⟨hs, h1, -⟩ | ⟨hs, h1, -⟩
      · have := (mem_loopValues_of_pos hs x).mp hx
        omega
      · have := (mem_loopValues_of_neg hs x).mp hx
        omega
    by_cases hp : p ser.init <;> simp [Iter.scheduled, hph, hnil, hp]
  · simp [Iter.scheduled, hph]

theorem flatMap_filter_perm {P : ℕ} {l : List ℤ} (hl : l.Nodup) {p : ℤ → Prop} [DecidablePred p]
    {q : Fin P → ℤ → Prop} [∀ r, DecidablePred (q r)] (hq : ∀ g, p g → ∃! r, q r g) :
    ((List.finRange P).flatMap fun r => l.filter fun g => p g ∧ q r g).Perm (l.filter p) := by
  refine (List.perm_ext_iff_of_nodup ?_ (hl.filter _)).mpr fun g => ?_
  · refine List.nodup_flatMap.mpr ⟨fun r _ => hl.filter _, ?_⟩
    refine (List.nodup_finRange P).imp fun {r r'} hne => ?_
    refine List.disjoint_left.mpr fun g hg hg' => ?_
    simp only [List.mem_filter, decide_eq_true_eq] at hg hg'
    exact hne ((hq g hg.2.1).unique hg.2.2 hg'.2.2)
  · simp only [List.mem_flatMap, List.mem_finRange, true_and, List.mem_filter, decide_eq_true_eq]
    constructor
    · rintro ⟨r, h1, h2, -⟩
      exact ⟨h1, h2⟩
    · rintro ⟨h1, h2⟩
      obtain ⟨r, hr, -⟩ := hq g h2
      exact ⟨r, h1, h2, hr⟩

theorem ExecutesExactly.of_runs (hfmt : fmt.BlockType)
    (hm : fmt.NonnegMapping (nodes.info j).size) (h : Distributed t i nodes j fmt tr) {ser : Iter}
    (hs : ser.step ≠ 0) (hrun : ∀ r, executed ser (tr r) i = .ok (ser.values.filter fun g =>
      (t.info i).Contains g ∧ Owned (t.info i) ⟨_, r, (nodes.info j).size_lt⟩ fmt g)) :
    ExecutesExactly (t.info i) (nodes.info j) fmt ser tr i := by
  refine ⟨_, hrun, fun _ => rfl, fun hdup => ?_, fun hdup r => ?_⟩
  · refine flatMap_filter_perm (Iter.values_nodup hs) fun g hg => ?_
    refine h.existsUnique_owned ?_ hm hg
    match fmt with
    | .block => exact Or.inl trivial
    | .gblock (some m) => exact Or.inr ⟨m, rfl⟩
    | .duplication => exact absurd rfl hdup
  · subst hdup
    simp [Owned]

end

end OmniCompiler.Xmp

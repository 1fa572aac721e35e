import OmniCompiler.Xmp.CyclicSchedule

/-!
# Loops over block-cyclic dimensions

`_XMP_sched_loop_template_width_N` divides the loop by the width, schedules the blocks as
a cyclic loop and clips the first and the last block.
-/
namespace OmniCompiler.Xmp

open MachineInt ForLoop BlockCyclic Progression

variable {d n : ℕ}

/-- The `int`s that the scheduler computes for a loop in the template have their value: the stride
of the chunk, and the end of the last block, which may lie beyond the template. -/
structure BlockCyclicInInt (ti : TemplateInfo) (P : ℕ) (w : ℤ) : Prop where
  stride : InInt (P * w)
  blocks : InInt (ti.serLower + ceilDiv ti.serSize w * w)

/-- The bounds of the loop lie in the template; the exclusive bound may be one beyond. -/
def Iter.Within (ser : Iter) (ti : TemplateInfo) : Prop :=
  ti.Contains ser.init ∧
    (ser.step = 1 → ti.serLower ≤ ser.cond ∧ ser.cond ≤ ti.serUpper + 1) ∧
    (ser.step = -1 → ti.serLower - 1 ≤ ser.cond ∧ ser.cond ≤ ti.serUpper)

/-- The global bounds returned for rank `r`. An empty loop may keep a bound just below the
template. -/
structure IsWidthNCut (norm par : Iter) (lb ub w P r : ℤ) : Prop where
  init_le : lb ≤ par.init
  init_owner : owner w P (par.init - lb) = r
  cond_owner : norm.cond < lb ∧ par.cond = lb - 1 ∨
    lb ≤ par.cond ∧ par.cond ≤ ub ∧ owner w P (par.cond - lb) = r
  spans : ∀ x, lb ≤ x → x ≤ ub → owner w P (x - lb) = r →
    (norm.init ≤ x ∧ x ≤ norm.cond ↔ par.init ≤ x ∧ x ≤ par.cond)

section

variable {lb ub w P r m : ℤ} {norm par : Iter}

/-- Block numbers of a rank, shifted to the template as the scheduler has them. -/
theorem mem_strided_blocks (hP : 0 < P) {q : ℤ} :
    q + lb ∈ strided (r + lb) (r + m * P + lb) P ↔ ∃ k, 0 ≤ k ∧ k ≤ m ∧ q = r + k * P := by
  constructor
  · rintro ⟨h0, h1, k, hk⟩
    refine ⟨k, ?_, ?_, by linarith⟩
    · exact nonneg_of_mul_nonneg_right (show 0 ≤ P * k by linarith) hP
    · exact le_of_mul_le_mul_left (show P * k ≤ P * m by linarith) hP
  · rintro ⟨k, hk0, hk1, rfl⟩
    have h0 := mul_nonneg hk0 hP.le
    have h1 := mul_le_mul_of_nonneg_right hk1 hP.le
    exact ⟨by linarith, by linarith, k, by ring⟩

theorem block_mem_strided (hw : 0 < w) (hr0 : 0 ≤ r) (hr1 : r < P)
    (hm : ∀ k, k ≤ m ↔ (r + k * P) * w < ub - lb + 1) {x : ℤ} (h0 : lb ≤ x) (h1 : x ≤ ub)
    (ho : owner w P (x - lb) = r) :
    (x - lb) / w + lb ∈ strided (r + lb) (r + m * P + lb) P := by
  obtain ⟨k, j, hk, hj0, hj1, hx⟩ :=
    (owner_eq_iff_of_nonneg hw hr0 hr1 (show 0 ≤ x - lb by omega)).mp ho
  rw [hx, ediv_mul_add hj0 hj1]
  exact (mem_strided_blocks (by omega)).mpr ⟨k, hk, (hm k).mpr (by omega), rfl⟩

theorem owner_of_mem_strided (hw : 0 < w) (hr0 : 0 ≤ r) (hr1 : r < P) {q j : ℤ}
    (hq : q + lb ∈ strided (r + lb) (r + m * P + lb) P) (hj0 : 0 ≤ j) (hj1 : j < w) :
    owner w P (q * w + j) = r := by
  obtain ⟨k, -, -, rfl⟩ := (mem_strided_blocks (by omega)).mp hq
  exact (owner_eq_iff hw hr0 hr1 _).mpr ⟨k, j, hj0, hj1, rfl⟩

/-- The block of the inclusive bound. Truncation sends the bound just below the template
to the first block, so it needs a case of its own. -/
theorem tdiv_cond (hw : 2 ≤ w) {c : ℤ} (hc : -1 ≤ c) : c.tdiv w = max c 0 / w := by
  rcases hc.eq_or_lt with rfl | h
  · rw [Int.neg_tdiv, Int.tdiv_eq_ediv_of_nonneg zero_le_one,
      Int.ediv_eq_zero_of_lt zero_le_one (by omega)]
    simp
  · rw [Int.tdiv_eq_ediv_of_nonneg (by omega), max_eq_left (by omega)]

def blockLoop (norm : Iter) (lb w : ℤ) : Iter :=
  ⟨(norm.init - lb) / w + lb, max (norm.cond - lb) 0 / w + lb, 1⟩

theorem block_mem_fromInit (hw : 0 < w) {x : ℤ} {S : Set ℤ} (hx : (x - lb) / w + lb ∈ S)
    (hle : norm.init ≤ x) : (x - lb) / w + lb ∈ (blockLoop norm lb w).fromInit S := by
  have := Int.ediv_le_ediv hw (show norm.init - lb ≤ x - lb by omega)
  exact ⟨hx, by simpa [blockLoop] using this, one_dvd _⟩

theorem block_mem_toCond (hw : 0 < w) {x : ℤ} {S : Set ℤ} (hx : (x - lb) / w + lb ∈ S)
    (hle : x ≤ norm.cond) : (x - lb) / w + lb ∈ (blockLoop norm lb w).toCond S := by
  have := Int.ediv_le_ediv hw (show x - lb ≤ max (norm.cond - lb) 0 by omega)
  exact ⟨hx, by simpa [blockLoop] using this, one_dvd _⟩

/-- Clipping the first and the last block at the loop and at the template. -/
theorem isWidthNCut_of_blocks (hw : 2 ≤ w) (hr0 : 0 ≤ r) (hr1 : r < P)
    (hm : ∀ k, k ≤ m ↔ (r + k * P) * w < ub - lb + 1) (hc0 : lb - 1 ≤ norm.cond) {blocks : Iter}
    (h : IsWidth1Cut (blockLoop norm lb w) (strided (r + lb) (r + m * P + lb) P) P blocks) :
    IsWidthNCut norm ⟨max ((blocks.init - lb) * w + lb) norm.init,
      min (min ((blocks.cond - lb) * w + lb + w - 1) ub) norm.cond, blocks.step⟩ lb ub w P r := by
  have hw0 : 0 < w := by omega
  have hP : 0 < P := by omega
  obtain ⟨⟨hiS, hi, -⟩, hmin⟩ := h.init
  obtain ⟨⟨hcS, hc, -⟩, hmax⟩ := h.cond
  obtain ⟨bi, hbi⟩ : ∃ b, blocks.init = b + lb := ⟨blocks.init - lb, by ring⟩
  obtain ⟨bc, hbc⟩ : ∃ b, blocks.cond = b + lb := ⟨blocks.cond - lb, by ring⟩
  rw [hbi] at hiS hi hmin ⊢
  rw [hbc] at hcS hc hmax ⊢
  have hnn : ∀ q, q + lb ∈ strided (r + lb) (r + m * P + lb) P →
      0 ≤ q * w ∧ q * w < ub - lb + 1 := by
    intro q hq
    obtain ⟨k, hk0, hk1, rfl⟩ := (mem_strided_blocks hP).mp hq
    exact ⟨by positivity, (hm k).mp hk1⟩
  obtain ⟨hbi0, hbi1⟩ := hnn bi hiS
  obtain ⟨hbc0, hbc1⟩ := hnn bc hcS
  have hi' : norm.init - lb < bi * w + w := by
    have := Int.lt_mul_of_ediv_lt hw0 (show (norm.init - lb) / w < bi + 1 by
      simp only [blockLoop] at hi; omega)
    linarith
  have hc' : bc * w ≤ max (norm.cond - lb) 0 := by
    refine (Int.le_ediv_iff_mul_le hw0).mp ?_
    simp only [blockLoop] at hc
    omega
  simp only [add_sub_cancel_right]
  constructor <;> dsimp only
  · omega
  · have ho := owner_of_mem_strided hw0 hr0 hr1 hiS
      (show 0 ≤ max (bi * w + lb) norm.init - lb - bi * w by omega) (by omega)
    rwa [add_sub_cancel] at ho
  · rcases lt_or_ge norm.cond lb with hlt | hge
    · exact Or.inl ⟨hlt, by omega⟩
    · refine Or.inr ⟨by omega, by omega, ?_⟩
      have ho := owner_of_mem_strided hw0 hr0 hr1 hcS
        (show 0 ≤ min (min (bc * w + lb + w - 1) ub) norm.cond - lb - bc * w by omega) (by omega)
      rwa [add_sub_cancel] at ho
  · intro x hx0 hx1 ho
    have hS := block_mem_strided hw0 hr0 hr1 hm hx0 hx1 ho
    have hb0 := Int.ediv_mul_le (x - lb) hw0.ne'
    have hb1 := Int.lt_ediv_add_one_mul_self (x - lb) hw0
    have hleft : norm.init ≤ x → bi * w ≤ x - lb := by
      intro hle
      have hb := hmin (block_mem_fromInit hw0 hS hle)
      have := mul_le_mul_of_nonneg_right (show bi ≤ (x - lb) / w by omega) hw0.le
      omega
    have hright : x ≤ norm.cond → x - lb < bc * w + w := by
      intro hle
      have hb := hmax (block_mem_toCond hw0 hS hle)
      have := mul_le_mul_of_nonneg_right (show (x - lb) / w + 1 ≤ bc + 1 by omega) hw0.le
      rw [add_mul bc, one_mul] at this
      omega
    constructor
    · rintro ⟨h1, h2⟩
      have := hleft h1
      have := hright h2
      omega
    · rintro ⟨h1, h2⟩
      omega

theorem schedLoopTemplateWidthN_spec (hw : 2 ≤ w) (hr0 : 0 ≤ r) (hr1 : r < P) (hm0 : 0 ≤ m)
    (hm : ∀ k, k ≤ m ↔ (r + k * P) * w < ub - lb + 1) (hN : InInt (ub - lb + 1)) (hP' : InInt P)
    (hlb : InInt lb) (hblocks : InInt (lb + ceilDiv (ub - lb + 1) w * w)) (hstep : norm.step = 1)
    (hi0 : lb ≤ norm.init) (hi1 : norm.init ≤ ub + 1) (hc0 : lb - 1 ≤ norm.cond)
    (hc1 : norm.cond ≤ ub) :
    ∃ cut, schedLoopTemplateWidthN norm (lb + r * w) (lb + r * w + m * (P * w)) (P * w) w lb ub =
        .ok cut ∧
      (cut = none → ∀ x, lb ≤ x → x ≤ ub → owner w P (x - lb) = r →
        ¬ (norm.init ≤ x ∧ x ≤ norm.cond)) ∧
      ∀ par, cut = some par → IsWidthNCut norm par lb ub w P r := by
  have hw0 : 0 < w := by omega
  have hP : 0 < P := by omega
  have hmP : 0 ≤ m * P := by positivity
  obtain ⟨-, hN⟩ := hN
  obtain ⟨-, hP'⟩ := hP'
  obtain ⟨hlb, -⟩ := hlb
  obtain ⟨-, hblocks⟩ := hblocks
  have hblock : ∀ k, 0 ≤ k → k ≤ m → 0 ≤ (r + k * P) * w ∧ (r + k * P) * w < ub - lb + 1 :=
    fun k hk0 hk1 => ⟨by positivity, (hm k).mp hk1⟩
  have htl : (toInt (lb + r * w - lb)).tdiv w + lb = r + lb := by
    obtain ⟨h0, h1⟩ := hblock 0 le_rfl hm0
    rw [zero_mul, add_zero] at h0 h1
    rw [add_sub_cancel_left, toInt_of_inInt ⟨by omega, by omega⟩, Int.mul_tdiv_cancel _ hw0.ne']
  have htu : (toInt (lb + r * w + m * (P * w) - lb)).tdiv w + lb = r + m * P + lb := by
    obtain ⟨h0, h1⟩ := hblock m hm0 le_rfl
    rw [show lb + r * w + m * (P * w) - lb = (r + m * P) * w by ring,
      toInt_of_inInt ⟨by omega, by omega⟩, Int.mul_tdiv_cancel _ hw0.ne']
  have hsi : (toInt (norm.init - lb)).tdiv w = (norm.init - lb) / w := by
    rw [toInt_of_inInt ⟨by omega, by omega⟩, Int.tdiv_eq_ediv_of_nonneg (by omega)]
  have hsc : toInt (norm.cond - lb) = norm.cond - lb := toInt_of_inInt ⟨by omega, by omega⟩
  have hfit : (blockLoop norm lb w).CutFits (r + lb) (r + m * P + lb) := by
    have hdiv : ∀ x, 0 ≤ x → x ≤ ub - lb + 1 → InInt (x / w + lb - (r + lb)) := by
      intro x h0 h1
      have := Int.ediv_nonneg h0 hw0.le
      have := Int.ediv_le_self w h0
      constructor <;> omega
    refine ⟨fun _ => ⟨hdiv _ (by omega) (by omega), hdiv _ (by omega) (by omega)⟩, fun h => ?_⟩
    exact absurd rfl h
  unfold schedLoopTemplateWidthN
  dsimp only
  rw [if_neg hw0.ne', if_neg (by simpa using hstep), htl, htu, Int.mul_tdiv_cancel _ hw0.ne', hsi,
    hsc, tdiv_cond hw (by omega), schedLoopTemplateWidth1_eq hP]
  obtain ⟨hnone, hsome⟩ := width1Cut_spec hP ⟨by omega, hP'⟩ (by omega) ⟨m, by ring⟩ hfit
  refine ⟨_, rfl, fun hcut x hx0 hx1 ho hx => ?_, fun par hpar => ?_⟩
  · have hS := block_mem_strided hw0 hr0 hr1 hm hx0 hx1 ho
    rcases hnone (Option.map_eq_none_iff.mp hcut) with h | h
    · exact (h ▸ block_mem_fromInit hw0 hS hx.1 : _ ∈ (∅ : Set ℤ))
    · exact (h ▸ block_mem_toCond hw0 hS hx.2 : _ ∈ (∅ : Set ℤ))
  · obtain ⟨blocks, hblocks, rfl⟩ := Option.map_eq_some_iff.mp hpar
    have hcut := hsome blocks hblocks
    have h := isWidthNCut_of_blocks hw hr0 hr1 hm hc0 hcut
    -- the end of the last block may lie outside the template, by less than a block
    have hend : InInt ((blocks.cond - lb) * w + lb + w - 1) := by
      have hmem := hcut.cond.1.1
      rw [show blocks.cond = blocks.cond - lb + lb by ring] at hmem
      obtain ⟨k, hk0, hk1, hk⟩ := (mem_strided_blocks hP).mp hmem
      obtain ⟨h0, h1⟩ := hblock k hk0 hk1
      rw [← hk] at h0 h1
      have hlt := (lt_ceilDiv_iff (by omega) hw0).mpr h1
      have := mul_le_mul_of_nonneg_right
        (show blocks.cond - lb + 1 ≤ ceilDiv (ub - lb + 1) w by omega) hw0.le
      rw [add_mul, one_mul] at this
      constructor <;> omega
    rw [toInt_of_inInt hend]
    convert h using 2
    · omega
    · split_ifs <;> omega

theorem gtolBlockCyclic_eq {x : ℤ} (hx : lb ≤ x) :
    (x - lb).tdiv (P * w) * w + (x - lb).tmod w = localIndex w P (x - lb) := by
  rw [Int.tdiv_eq_ediv_of_nonneg (by omega), Int.tmod_eq_emod_of_nonneg (by omega), localIndex]

/-- Just below the template the translation gives the local index `-1`. -/
theorem gtolBlockCyclic_below (hw : 2 ≤ w) (hP : 0 < P) :
    (lb - 1 - lb).tdiv (P * w) * w + (lb - 1 - lb).tmod w = -1 := by
  have hPw : 1 * w ≤ P * w := mul_le_mul_of_nonneg_right hP (by omega)
  rw [show lb - 1 - lb = -1 by ring, Int.neg_tdiv, Int.neg_tmod,
    Int.tdiv_eq_zero_of_lt zero_le_one (by omega), Int.tmod_eq_of_lt zero_le_one (by omega)]
  ring

theorem IsWidthNCut.runs (hw : 2 ≤ w) (hr0 : 0 ≤ r) (hr1 : r < P) {f : ℤ → ℤ}
    (hf : ∀ l, 0 ≤ l → f l = lb + globalIndex w P r l) (hstep : norm.step = 1)
    (h : IsWidthNCut norm par lb ub w P r) :
    CutRuns f (fun x => ((lb ≤ x ∧ x ≤ ub) ∧ owner w P (x - lb) = r) ∧ norm.Spans x)
      (some ⟨(par.init - lb).tdiv (P * w) * w + (par.init - lb).tmod w,
        (par.cond - lb).tdiv (P * w) * w + (par.cond - lb).tmod w, 1⟩) := by
  have hw0 : 0 < w := by omega
  have hP : 0 < P := by omega
  have hmono := globalIndex_strictMono hw0 hP r
  have hlo : 0 ≤ localIndex w P (par.init - lb) :=
    localIndex_nonneg hw0 hP (by have := h.init_le; omega)
  rw [gtolBlockCyclic_eq h.init_le]
  refine ⟨one_pos, one_dvd _, fun a ha b _ hab => ?_, fun x => ?_⟩
  · have ha1 : localIndex w P (par.init - lb) ≤ a := ha.1
    rw [hf a (by omega), hf b (by omega)]
    have := hmono hab
    omega
  · constructor
    · rintro ⟨l, ⟨h1, h2, -⟩, rfl⟩
      dsimp only at h1 h2
      rcases h.cond_owner with ⟨-, hbelow⟩ | ⟨hge, hle, hco⟩
      · rw [hbelow, gtolBlockCyclic_below hw hP] at h2
        omega
      · rw [gtolBlockCyclic_eq hge] at h2
        have hg1 := hmono.monotone h1
        have hg2 := hmono.monotone h2
        have hio := h.init_owner
        have hil := h.init_le
        rw [show globalIndex w P r (localIndex w P (par.init - lb)) = par.init - lb by
          rw [← hio, globalIndex_localIndex hw0]] at hg1
        rw [show globalIndex w P r (localIndex w P (par.cond - lb)) = par.cond - lb by
          rw [← hco, globalIndex_localIndex hw0]] at hg2
        have ho : owner w P (lb + globalIndex w P r l - lb) = r := by
          rw [add_sub_cancel_left, owner_globalIndex hw0 hr0 hr1]
        rw [hf l (by omega)]
        have hsp := (h.spans _ (by omega) (by omega) ho).mpr ⟨by omega, by omega⟩
        exact ⟨⟨⟨by omega, by omega⟩, ho⟩, hsp.1, hsp.2, hstep ▸ one_dvd _⟩
    · rintro ⟨⟨⟨hx0, hx1⟩, ho⟩, h1, h2, -⟩
      obtain ⟨h3, h4⟩ := (h.spans x hx0 hx1 ho).mp ⟨h1, h2⟩
      have hnn := localIndex_nonneg hw0 hP (show 0 ≤ x - lb by omega)
      refine ⟨localIndex w P (x - lb), ⟨?_, ?_, one_dvd _⟩, ?_⟩
      · rw [localIndex_le_iff hw0 hP (h.init_owner.trans ho.symm)]
        omega
      · rcases h.cond_owner with ⟨hlt, hbelow⟩ | ⟨hge, -, hco⟩
        · omega
        · dsimp only
          rw [gtolBlockCyclic_eq hge, localIndex_le_iff hw0 hP (ho.trans hco.symm)]
          omega
      · rw [hf _ hnn, ← ho, globalIndex_localIndex hw0]
        ring

end

theorem cutWidthN_runs {ti : TemplateInfo} {w P r m : ℤ} {norm : Iter} (hw : 2 ≤ w) (hr0 : 0 ≤ r)
    (hr1 : r < P) (hm0 : 0 ≤ m) (hm : ∀ k, k ≤ m ↔ (r + k * P) * w < ti.serSize) {f : ℤ → ℤ}
    (hP' : InInt P) (hblocks : InInt (ti.serLower + ceilDiv ti.serSize w * w))
    (hf : ∀ l, 0 ≤ l → f l = ti.serLower + globalIndex w P r l) (hstep : norm.step = 1)
    (hin : ti.serLower ≤ norm.init ∧ norm.init ≤ ti.serUpper + 1 ∧ ti.serLower - 1 ≤ norm.cond ∧
      norm.cond ≤ ti.serUpper) :
    ∃ par, (do
      let par ← schedLoopTemplateWidthN norm (ti.serLower + r * w)
        (ti.serLower + r * w + m * (P * w)) (P * w) w ti.serLower ti.serUpper
      .ok (par.map fun par => ⟨(par.init - ti.serLower).tdiv (P * w) * w +
        (par.init - ti.serLower).tmod w, (par.cond - ti.serLower).tdiv (P * w) * w +
        (par.cond - ti.serLower).tmod w, 1⟩) : Except String (Option Iter)) = .ok par ∧
      CutRuns f (fun x => (ti.Contains x ∧ owner w P (x - ti.serLower) = r) ∧ norm.Spans x)
        par := by
  obtain ⟨hi0, hi1, hc0, hc1⟩ := hin
  obtain ⟨cut, hcut, hnone, hsome⟩ := schedLoopTemplateWidthN_spec hw hr0 hr1 hm0 hm
    ti.count_inInt hP' ti.lower_inInt hblocks hstep hi0 hi1 hc0 hc1
  rw [hcut]
  refine ⟨_, rfl, ?_⟩
  cases cut with
  | none =>
    rintro x ⟨⟨⟨hx0, hx1⟩, ho⟩, h1, h2, -⟩
    exact hnone rfl x hx0 hx1 ho ⟨h1, h2⟩
  | some par => exact (hsome par rfl).runs hw hr0 hr1 hf hstep

theorem Iter.Within.fits {ser : Iter} {ti : TemplateInfo} (hin : ser.Within ti)
    (hstep : ser.step = 1 ∨ ser.step = -1) (hlast' : InInt ser.last) :
    ser.Fits ti.serLower ti.serLower 0 := by
  obtain ⟨⟨h0, h1⟩, hpos, hneg⟩ := hin
  obtain ⟨hlow, -⟩ := ti.lower_inInt
  obtain ⟨-, hup⟩ := ti.upper_inInt
  obtain ⟨-, hN⟩ := ti.count_inInt
  have hlast : ti.serLower - 1 ≤ ser.last ∧ ser.last ≤ ti.serUpper + 1 := by
    unfold Iter.last
    rcases hstep with hs | hs
    · have := hpos hs
      rw [if_neg (by omega)]
      omega
    · have := hneg hs
      rw [if_pos (by omega)]
      omega
  refine ⟨⟨by omega, by omega⟩, ⟨⟨by omega, by omega⟩, by omega, by omega⟩, hlast',
    fun _ => ⟨⟨by omega, by omega⟩, by omega, by omega⟩,
    fun _ => ⟨⟨by omega, by omega⟩, by omega, by omega⟩, fun h => absurd hstep h,
    ⟨by omega, by omega⟩, by omega, by omega⟩

theorem normSchedParams_unit {ser norm : Iter} {reverseIter : Bool} {ti : TemplateInfo}
    (hin : ser.Within ti) (hstep : ser.step = 1 ∨ ser.step = -1) (hlast : InInt ser.last)
    (h : normSchedParams ser = .ok (norm, reverseIter)) :
    ti.serLower ≤ norm.init ∧ norm.init ≤ ti.serUpper + 1 ∧ ti.serLower - 1 ≤ norm.cond ∧
      norm.cond ≤ ti.serUpper := by
  obtain ⟨⟨h0, h1⟩, hpos, hneg⟩ := hin
  have hone : toInt 1 = 1 := by decide
  rcases hstep with hs | hs
  · have := hpos hs
    simp only [normSchedParams, hs, one_ne_zero, if_false, if_true, Except.ok.injEq,
      Prod.mk.injEq] at h
    rw [Iter.last, if_neg (by omega)] at hlast
    rw [← h.1, toInt_of_inInt hlast]
    dsimp only
    omega
  · have := hneg hs
    rw [Iter.last, if_pos (by omega)] at hlast
    have hcond : toInt (ser.cond + 1) = ser.cond + 1 := toInt_of_inInt hlast
    simp [normSchedParams, hs, hcond, hone] at h
    rw [← h.1]
    dsimp only
    omega

theorem CyclicChunk.executed_blockCyclic {ti : TemplateInfo} {ni : NodesInfo} {t : Template d n}
    {i : Fin d} {w : ℤ} (hw : 2 ≤ w) (h : CyclicChunk w ti ni t i)
    (hfit : BlockCyclicInInt ti ni.size w) {ser : Iter} (hin : ser.Within ti)
    (hlast : InInt ser.last) (hstep : ser.step = 1 ∨ ser.step = -1) :
    executed ser t i =
      .ok (ser.values.filter fun g => ti.Contains g ∧ Owned ti ni (.blockCyclic w) g) := by
  have hw0 : 0 < w := by omega
  have hs : ser.step ≠ 0 := by omega
  have hr1 : (ni.rank : ℤ) < ni.size := by exact_mod_cast ni.rank.isLt
  have hmanner : (t.chunk i).distManner = .blockCyclic := by
    rw [h.manner, if_neg (by omega)]
  have hph : ser.scheduled = ser.values := by
    refine if_neg ?_
    unfold Iter.Phantom
    omega
  have hsize : (t.chunk i).nodesSize = ni.size := by
    rw [TemplateChunk.nodesSize, h.nodesInfo, Option.elim_some]
  obtain ⟨hstride, hblocks⟩ := hfit
  simp only [executed, schedLoopTemplate, hmanner, schedLoopTemplateBlockCyclic, h.info, h.width,
    h.stride_eq hstride, hsize, toInt_of_inInt hstride,
    toInt_of_inInt (ni.width_inInt hw0 hstride)]
  by_cases ho : t.isOwner = true
  · obtain ⟨hlower, m, hm0, hupper, hm⟩ := h.bounds ho
    rw [hlower, hupper]
    obtain ⟨norm, it, -, hspan, hrun, hdir, hmem⟩ := schedLoop_exec ho hs
      (hin.fits hstep hlast) fun norm hnorm hn _ =>
        cutWidthN_runs hw (by positivity) hr1 hm0 hm ni.size_inInt hblocks
          (fun l => h.l2g_eq hw0 hstride) (by rcases hstep with hst | hst <;> simp [hn, hst])
          (normSchedParams_unit hin hstep hlast hnorm)
    rw [hrun]
    refine congrArg Except.ok (hdir.eq_of_mem_iff ((Iter.values_direction hs).filter _) ?_)
    intro x
    rw [hmem, hspan, hph, List.mem_filter, decide_eq_true_eq, and_comm]
    rfl
  · have hnil : ser.values.filter
        (fun g => decide (ti.Contains g ∧ Owned ti ni (.blockCyclic w) g)) = [] := by
      have hmem : ∀ g, g ∈ chunkSet t i ↔ ti.Contains g ∧ Owned ti ni (.blockCyclic w) g :=
        h.mem_chunkSet hw0 hstride
      simp [← hmem, chunkSet, ho]
    rw [hnil, schedLoop_not_owner ho]
    rfl

theorem normSchedParams_step {ser : Iter} (h0 : ser.step ≠ 0) (hs : InInt ser.step) :
    ∃ norm reverseIter, normSchedParams ser = .ok (norm, reverseIter) ∧
      (norm.step = 1 → ser.step = 1 ∨ ser.step = -1) := by
  obtain ⟨hlow, hup⟩ := hs
  unfold normSchedParams
  rw [if_neg h0]
  split_ifs with h1 hpos
  · exact ⟨_, _, rfl, fun _ => Or.inl h1⟩
  · exact ⟨_, _, rfl, fun h => Or.inl h⟩
  · refine ⟨_, _, rfl, fun h => Or.inr ?_⟩
    dsimp only [toInt] at h
    omega

theorem schedLoopTemplateBlockCyclic_error {t : Template d n} (ho : t.isOwner = true) (i : Fin d)
    (hwidth : toInt (t.chunk i).parWidth ≠ 0) {ser : Iter} (hs : InInt ser.step)
    (hstep : ser.step ≠ 1 ∧ ser.step ≠ -1) :
    schedLoopTemplateBlockCyclic ser t i =
      .error (if ser.step = 0 then "loop step is 0"
        else "loop step is not 1, -1: unsupported case") := by
  unfold schedLoopTemplateBlockCyclic schedLoop
  rw [if_pos ho]
  split_ifs with h0
  · simp [normSchedParams, h0, bind, Except.bind]
  · obtain ⟨norm, reverseIter, hnorm, hn⟩ := normSchedParams_step h0 hs
    have hne : norm.step ≠ 1 := fun h => by
      rcases hn h with h1 | h1
      · exact hstep.1 h1
      · exact hstep.2 h1
    simp [hnorm, schedLoopTemplateWidthN, hwidth, hne, bind, Except.bind]

theorem schedLoopTemplateBlockCyclic_step {t : Template d n} {i : Fin d} {ser it : Iter}
    (h : schedLoopTemplateBlockCyclic ser t i = .ok it) : it.step = 1 ∨ it.step = -1 := by
  unfold schedLoopTemplateBlockCyclic schedLoop at h
  split_ifs at h
  · simp only [bind, Except.bind] at h
    split at h
    · cases h
    · next v _ =>
      split at h
      · cases h
      · next cut hcut =>
        split at hcut
        · cases hcut
        · next par _ =>
          cases hcut
          cases par with
          | none =>
            cases h
            exact Or.inl rfl
          | some par =>
            cases h
            unfold finalizeIter
            split_ifs <;> simp
  · cases h
    exact Or.inl rfl

end OmniCompiler.Xmp

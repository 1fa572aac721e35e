import OmniCompiler.Arithmetic.ForLoop
import OmniCompiler.Arithmetic.Progression
import OmniCompiler.Xmp.Index

/-!
# Scheduling a parallel loop (`xmp_loop.c`)

A serial loop is normalised to an increasing loop with an inclusive bound, cut to the
chunk of the executing node, translated to local indices and turned back. The five
`_XMP_sched_loop_template_*` functions share this skeleton and differ in the cut and in
the translation. The parameters are `int`s: differences that leave their range wrap round, and
`Iter.Fits` says that none does.
-/
namespace OmniCompiler.Xmp

open MachineInt ForLoop Progression

variable {d n : ℕ}

/-- The three parameters of a loop, `for (i = init; i < cond; i += step)` or its
descending counterpart. -/
structure Iter where
  init : ℤ
  cond : ℤ
  step : ℤ
  deriving DecidableEq, Repr

namespace Iter

def values (it : Iter) : List ℤ := loopValues it.init it.cond it.step

/-- The parameters returned to a node without iterations. -/
def empty : Iter := ⟨0, 0, 1⟩

/-- Values of the increasing loop with inclusive bound that normalisation produces. -/
def Spans (it : Iter) (x : ℤ) : Prop := it.init ≤ x ∧ x ≤ it.cond ∧ it.step ∣ x - it.init

end Iter

/-- `_XMP_SM_NORM_SCHED_PARAMS`. The second component is `reverse_iter`. -/
def normSchedParams (ser : Iter) : Except String (Iter × Bool) :=
  if ser.step = 0 then .error "loop step is 0"
  else if ser.step = 1 then .ok ({ ser with cond := toInt (ser.cond - 1) }, false)
  else if ser.step > 0 then
    let serCond := toInt (ser.cond - 1)
    .ok ({ ser with cond := serCond - (toInt (serCond - ser.init)).tmod ser.step }, false)
  else
    let serStep := toInt (-ser.step)
    let serCond := toInt (ser.cond + 1)
    .ok (⟨serCond + (toInt (ser.init - serCond)).tmod serStep, ser.init, serStep⟩, true)

def finalizeIter (par : Iter) (reverseIter : Bool) : Iter :=
  if reverseIter then ⟨par.cond, par.init - 1, -par.step⟩ else { par with cond := par.cond + 1 }

/-- The three calculations of `_XMP_sched_loop_template_width_1`. -/
def width1Cut (ser : Iter) (templateLower templateUpper templateStride : ℤ) : Option Iter :=
  let xMax := floori (templateUpper - templateLower) templateStride
  if ser.step = 1 then
    let x := ceili (toInt (ser.init - templateLower)) templateStride
    let calcParInit := if x < 0 then some templateLower else if x > xMax then none
      else some (x * templateStride + templateLower)
    let x := floori (toInt (ser.cond - templateLower)) templateStride
    let calcParCond := if x < 0 then none else if x > xMax then some templateUpper
      else some (x * templateStride + templateLower)
    calcParInit.bind fun parInit => calcParCond.bind fun parCond =>
      some ⟨parInit, parCond, templateStride⟩
  else if templateUpper < ser.init ∨ ser.cond < templateLower then none
  else
    let hit (i : ℤ) : Prop := (toInt (i - ser.init)).tmod ser.step = 0
    let calcParInit := (loopValues templateLower (templateUpper + 1) templateStride).find?
      fun i => ¬ i < ser.init ∧ hit i
    let calcParCond := (loopValues templateUpper (templateLower - 1) (-templateStride)).find?
      fun i => ¬ i > ser.cond ∧ hit i
    calcParInit.bind fun parInit => calcParCond.bind fun parCond =>
      some ⟨parInit, parCond, lcm ser.step templateStride⟩

/-- `_XMP_sched_loop_template_width_1`; `none` is `_XMP_N_INT_FALSE`. It begins with a division
by the stride. -/
def schedLoopTemplateWidth1 (ser : Iter) (templateLower templateUpper templateStride : ℤ) :
    Except String (Option Iter) :=
  if templateStride = 0 then .error "division by zero"
  else .ok (width1Cut ser templateLower templateUpper templateStride)

def schedLoopTemplateWidthN (ser : Iter) (templateLower templateUpper templateStride width
    templateSerLower templateSerUpper : ℤ) : Except String (Option Iter) :=
  let blockOf (i : ℤ) := (toInt (i - templateSerLower)).tdiv width + templateSerLower
  let si := blockOf ser.init
  let sc := blockOf ser.cond
  let tl := blockOf templateLower
  let tu := blockOf templateUpper
  let ts := templateStride.tdiv width
  if width = 0 then .error "division by zero"
  else if ser.step ≠ 1 then .error "loop step is not 1, -1: unsupported case"
  else
    (schedLoopTemplateWidth1 ⟨si, sc, 1⟩ tl tu ts).map <| Option.map fun par =>
      let parInitTemp := (par.init - templateSerLower) * width + templateSerLower
      let parInit := if parInitTemp < ser.init then ser.init else parInitTemp
      let parCondTemp :=
        toInt ((par.cond - templateSerLower) * width + templateSerLower + width - 1)
      let parCondTemp := if parCondTemp > templateSerUpper then templateSerUpper else parCondTemp
      let parCond := if parCondTemp > ser.cond then ser.cond else parCondTemp
      { par with init := parInit, cond := parCond }

/-- The common skeleton: `cut` schedules a normalised loop on the chunk and translates
its bounds to local indices. -/
def schedLoop (t : Template d n) (cut : Iter → Except String (Option Iter)) (ser : Iter) :
    Except String Iter :=
  if t.isOwner then do
    let (norm, reverseIter) ← normSchedParams ser
    match ← cut norm with
    | some par => .ok (finalizeIter par reverseIter)
    | none => .ok .empty
  else .ok .empty

/-- The cut of the formats of width one, with the format's own translation `gtol` and
its own choice of the local step. -/
def cutWidth1 (chunk : TemplateChunk n) (gtol : ℤ → ℤ) (parStep : Iter → Iter → ℤ) (norm : Iter) :
    Except String (Option Iter) :=
  (schedLoopTemplateWidth1 norm chunk.parLower chunk.parUpper chunk.parStride).map <|
    Option.map fun par => ⟨gtol par.init, gtol par.cond, parStep norm par⟩

def schedLoopTemplateDuplication (ser : Iter) (t : Template d n) (templateIndex : Fin d) :
    Except String Iter :=
  schedLoop t (cutWidth1 (t.chunk templateIndex) id fun _ par => par.step) ser

/-- The translation is `_XMP_SM_GTOL_BLOCK`. -/
def schedLoopTemplateBlock (ser : Iter) (t : Template d n) (templateIndex : Fin d) :
    Except String Iter :=
  let chunk := t.chunk templateIndex
  let templateSerLower := (t.info templateIndex).serLower
  schedLoop t (cutWidth1 chunk (fun i => (i - templateSerLower).tmod chunk.parChunkWidth)
    fun norm _ => norm.step) ser

/-- The translation is `_XMP_SM_GTOL_CYCLIC`. The local step is one whatever the step
of the loop is. -/
def schedLoopTemplateCyclic (ser : Iter) (t : Template d n) (templateIndex : Fin d) :
    Except String Iter :=
  let chunk := t.chunk templateIndex
  let templateSerLower := (t.info templateIndex).serLower
  schedLoop t (cutWidth1 chunk (fun i => (i - templateSerLower).tdiv chunk.nodesSize)
    fun _ _ => 1) ser

/-- The translation is `_XMP_SM_GTOL_BLOCK_CYCLIC`. -/
def schedLoopTemplateBlockCyclic (ser : Iter) (t : Template d n) (templateIndex : Fin d) :
    Except String Iter :=
  let chunk := t.chunk templateIndex
  let info := t.info templateIndex
  let b := toInt chunk.parWidth
  let gtol (i : ℤ) := (i - info.serLower).tdiv (toInt (chunk.nodesSize * b)) * b +
    (i - info.serLower).tmod b
  schedLoop t (fun norm => do
    let par ← schedLoopTemplateWidthN norm chunk.parLower chunk.parUpper chunk.parStride b
      info.serLower info.serUpper
    .ok <| par.map fun par => ⟨gtol par.init, gtol par.cond, 1⟩) ser

/-- The translation is `_XMP_SM_GTOL_GBLOCK`. -/
def schedLoopTemplateGblock (ser : Iter) (t : Template d n) (templateIndex : Fin d) :
    Except String Iter :=
  let chunk := t.chunk templateIndex
  schedLoop t (cutWidth1 chunk (fun i => i - chunk.mappingArray chunk.nodesRank)
    fun norm _ => norm.step) ser

/-- The selection of the scheduler by the distribution manner, as in `xmpf_loop_sched__`. -/
def schedLoopTemplate (ser : Iter) (t : Template d n) (templateIndex : Fin d) :
    Except String Iter :=
  match (t.chunk templateIndex).distManner with
  | .duplication => schedLoopTemplateDuplication ser t templateIndex
  | .block => schedLoopTemplateBlock ser t templateIndex
  | .cyclic => schedLoopTemplateCyclic ser t templateIndex
  | .blockCyclic => schedLoopTemplateBlockCyclic ser t templateIndex
  | .gblock => schedLoopTemplateGblock ser t templateIndex

/-! ## Normalisation -/

namespace Iter

/-- The last value before the bound for a step of one. -/
def last (ser : Iter) : ℤ := if ser.step < 0 then ser.cond + 1 else ser.cond - 1

def Unit (ser : Iter) : Prop := ser.step = 1 ∨ ser.step = -1

instance (ser : Iter) : Decidable ser.Unit := inferInstanceAs (Decidable (_ ∨ _))

/-- Nothing that is computed for the loop and a chunk with bounds `tl` and `tu` and stride `ts`
leaves the range of `int`: the parameters themselves, the length of the loop, its distance from
the chunk, which unit steps divide and other steps search, and one stride beyond the chunk. -/
@[mk_iff]
structure Fits (ser : Iter) (tl tu ts : ℤ) : Prop where
  init : InInt ser.init
  step : InInt ser.step ∧ InInt (-ser.step)
  last : InInt ser.last
  length : ser.step ≠ 1 → InInt (ser.last - ser.init) ∧ InInt (ser.init - ser.last)
  division : ser.Unit → InInt (ser.init - tl) ∧ InInt (ser.last - tl)
  search : ¬ ser.Unit → min ser.init ser.last ≤ tu → tl ≤ max ser.init ser.last →
    InInt (tl - max ser.init ser.last) ∧ InInt (tu - min ser.init ser.last)
  ends : InInt (tl - ts) ∧ InInt (tu + ts)

instance (ser : Iter) (tl tu ts : ℤ) : Decidable (ser.Fits tl tu ts) :=
  decidable_of_iff' _ (fits_iff ser tl tu ts)

def FitsChunk (ser : Iter) (chunk : TemplateChunk n) : Prop :=
  ser.Fits chunk.parLower chunk.parUpper chunk.parStride

instance (ser : Iter) (chunk : TemplateChunk n) : Decidable (ser.FitsChunk chunk) :=
  inferInstanceAs (Decidable (ser.Fits _ _ _))

structure CutFits (norm : Iter) (tl tu : ℤ) : Prop where
  division : norm.step = 1 → InInt (norm.init - tl) ∧ InInt (norm.cond - tl)
  search : norm.step ≠ 1 → norm.init ≤ tu → tl ≤ norm.cond →
    ∀ i, tl ≤ i → i ≤ tu → InInt (i - norm.init)

/-- The empty loops that normalisation turns into a single iteration at `init`: the
truncating remainder of a negative distance moves the inclusive bound onto `init`. -/
def Phantom (ser : Iter) : Prop :=
  (0 < ser.step ∧ ser.cond ≤ ser.init ∧ ser.init + 1 - ser.cond < ser.step) ∨
    (ser.step < 0 ∧ ser.init ≤ ser.cond ∧ ser.cond + 1 - ser.init < -ser.step)

instance (ser : Iter) : Decidable ser.Phantom := inferInstanceAs (Decidable (_ ∨ _))

def scheduled (ser : Iter) : List ℤ := if ser.Phantom then [ser.init] else ser.values

end Iter

theorem Iter.mem_scheduled (ser : Iter) (x : ℤ) :
    x ∈ ser.scheduled ↔ x ∈ ser.values ∨ ser.Phantom ∧ x = ser.init := by
  unfold Iter.scheduled
  split_ifs with h
  · have hnil : x ∉ ser.values := by
      rcases h with ⟨hs, h1, -⟩ | ⟨hs, h1, -⟩
      · rw [Iter.values, mem_loopValues_of_pos hs]
        omega
      · rw [Iter.values, mem_loopValues_of_neg hs]
        omega
    simp [h, hnil]
  · simp [h]

/-- Rounding the distance of two integers to a multiple of the step stays between them. -/
theorem tmod_between (x s : ℤ) : (0 ≤ x → 0 ≤ x.tmod s ∧ x.tmod s ≤ x) ∧
    (x ≤ 0 → x ≤ x.tmod s ∧ x.tmod s ≤ 0) := by
  have hle : ∀ y : ℤ, 0 ≤ y → 0 ≤ y.tmod s ∧ y.tmod s ≤ y := by
    intro y hy
    refine ⟨Int.tmod_nonneg s hy, ?_⟩
    have h0 := Int.natAbs_tmod y s
    have h1 := Nat.mod_le y.natAbs s.natAbs
    have h2 := Int.tmod_nonneg s hy
    omega
  refine ⟨hle x, fun hx => ?_⟩
  have h := hle (-x) (by omega)
  rw [Int.neg_tmod] at h
  omega

/-- Normalisation keeps the iterations, up to the phantom one of some empty loops. -/
theorem normSchedParams_spec {ser : Iter} {tl tu ts : ℤ} (hs : ser.step ≠ 0)
    (hfit : ser.Fits tl tu ts) :
    ∃ norm, normSchedParams ser = .ok (norm, decide (ser.step < 0)) ∧ norm.step = |ser.step| ∧
      norm.CutFits tl tu ∧ ∀ x, norm.Spans x ↔ x ∈ ser.scheduled := by
  obtain ⟨-, ⟨-, hneg⟩, hlast, hlength, hdivision, hsearch, -⟩ := hfit
  unfold Iter.Unit at hdivision hsearch
  unfold Iter.last at hlast hlength hdivision hsearch
  unfold normSchedParams
  rw [if_neg hs]
  split_ifs with h1 hpos
  · rw [if_neg (by omega)] at hlast hdivision
    rw [decide_eq_false (by omega), toInt_of_inInt hlast]
    refine ⟨_, rfl, by simp [h1], ⟨fun _ => hdivision (Or.inl h1), fun h => absurd h1 h⟩,
      fun x => ?_⟩
    simp only [Iter.Spans, Iter.mem_scheduled, Iter.Phantom, Iter.values, h1]
    rw [mem_loopValues_of_pos one_pos]
    omega
  · rw [if_neg (by omega)] at hlast hlength hsearch
    have hb := tmod_between (ser.cond - 1 - ser.init) ser.step
    dsimp only
    rw [decide_eq_false (by omega), toInt_of_inInt hlast, toInt_of_inInt (hlength h1).1]
    refine ⟨_, rfl, (abs_of_pos hpos).symm, ⟨fun h => absurd h h1, fun _ ha hb' i hi0 hi1 => ?_⟩,
      fun x => ?_⟩
    · dsimp only at ha hb' ⊢
      obtain ⟨h0, h2⟩ := hsearch (by omega) (by omega) (by omega)
      obtain ⟨h00, -⟩ := h0
      obtain ⟨-, h21⟩ := h2
      constructor <;> omega
    · rw [Iter.Spans, le_sub_tmod_iff hpos, Iter.mem_scheduled, Iter.Phantom, Iter.values,
        mem_loopValues_of_pos hpos]
      dsimp only
      omega
  · have hlt : ser.step < 0 := by omega
    rw [if_pos hlt] at hlast hlength hdivision hsearch
    have hb := tmod_between (ser.init - (ser.cond + 1)) (-ser.step)
    dsimp only
    rw [decide_eq_true hlt, toInt_of_inInt hlast, toInt_of_inInt (hlength h1).2,
      toInt_of_inInt hneg]
    refine ⟨_, rfl, (abs_of_neg hlt).symm, ⟨fun h => ?_, fun h ha hb' i hi0 hi1 => ?_⟩,
      fun x => ?_⟩
    · dsimp only at h ⊢
      obtain ⟨h0, h2⟩ := hdivision (Or.inr (by omega))
      rw [h, Int.tmod_one, add_zero]
      exact ⟨h2, h0⟩
    · dsimp only at h ha hb' ⊢
      obtain ⟨h0, h2⟩ := hsearch (by omega) (by omega) (by omega)
      obtain ⟨h00, -⟩ := h0
      obtain ⟨-, h21⟩ := h2
      constructor <;> omega
    · have hspec := @le_sub_tmod_iff (-ser.init) (-(ser.cond + 1)) (-ser.step) (-x) (by omega)
      rw [show -(ser.cond + 1) - -ser.init = ser.init - (ser.cond + 1) by ring] at hspec
      have hd := dvd_sub_tmod (ser.init - (ser.cond + 1)) (-ser.step)
      set r := (ser.init - (ser.cond + 1)).tmod (-ser.step)
      have hdvd : -ser.step ∣ x - (ser.cond + 1 + r) ↔ -ser.step ∣ -x - -ser.init := by
        rw [← dvd_sub_right hd]
        ring_nf
      have hdvd' : ser.step ∣ x - ser.init ↔ -ser.step ∣ -x - -ser.init := by
        rw [neg_dvd, ← dvd_neg]
        ring_nf
      rw [Iter.mem_scheduled, Iter.Phantom, Iter.values, mem_loopValues_of_neg hlt, hdvd',
        Iter.Spans, hdvd]
      dsimp only
      omega

/-! ## The cut to a chunk of width one -/

/-- Indices of `S` that the normalised loop reaches from its start on, whatever its bound. -/
def Iter.fromInit (ser : Iter) (S : Set ℤ) : Set ℤ :=
  {x | x ∈ S ∧ ser.init ≤ x ∧ ser.step ∣ x - ser.init}

/-- Indices of `S` up to the bound of the normalised loop, whatever its start. -/
def Iter.toCond (ser : Iter) (S : Set ℤ) : Set ℤ :=
  {x | x ∈ S ∧ x ≤ ser.cond ∧ ser.step ∣ x - ser.init}

section

variable {ser par : Iter} {tl tu ts : ℤ}

theorem width1_parInit_of_step_one (hts : 0 < ts) {q : ℤ} (hq : 0 ≤ q) (h1 : ser.step = 1)
    (hfit : InInt (ser.init - tl)) :
    let x := ceili (toInt (ser.init - tl)) ts
    let found := if x < 0 then some tl else if x > q then none else some (x * ts + tl)
    (found = none → ser.fromInit (strided tl (q * ts + tl) ts) = ∅) ∧
      ∀ y, found = some y → IsLeast (ser.fromInit (strided tl (q * ts + tl) ts)) y := by
  rw [toInt_of_inInt hfit]
  intro x found
  have hx : ∀ k, x ≤ k ↔ ser.init ≤ k * ts + tl := fun k => by
    rw [ceili_le_iff hts]
    constructor <;> intro h <;> linarith
  have hmem : ∀ k, k * ts + tl ∈ ser.fromInit (strided tl (q * ts + tl) ts) ↔
      0 ≤ k ∧ k ≤ q ∧ x ≤ k := fun k => by
    simp only [Iter.fromInit, Set.mem_ofPred_eq, mem_strided_mul hts, hx, h1]
    simp [and_assoc]
  have hfound : found = if x > q then none else some (max x 0 * ts + tl) := by
    dsimp only [found]
    split_ifs with h0 h2 h2
    · omega
    · simp [max_eq_right h0.le]
    · rfl
    · rw [max_eq_left (by omega)]
  rw [hfound]
  split_ifs with hgt
  · refine ⟨fun _ => Set.eq_empty_of_forall_notMem fun y hy => ?_, by simp⟩
    obtain ⟨k, rfl⟩ := exists_mul_of_mem_strided hy.1
    have := (hmem k).mp hy
    omega
  · refine ⟨by simp, fun y hy => ?_⟩
    obtain rfl : max x 0 * ts + tl = y := by simpa using hy
    refine ⟨(hmem _).mpr (by omega), fun z hz => ?_⟩
    obtain ⟨k, rfl⟩ := exists_mul_of_mem_strided hz.1
    have hz' := (hmem k).mp hz
    have := mul_le_mul_of_nonneg_right (show max x 0 ≤ k by omega) hts.le
    linarith

/-- The greatest index of the chunk below the bound of the loop, by division. -/
theorem width1_parCond_of_step_one (hts : 0 < ts) {q : ℤ} (hq : 0 ≤ q) (h1 : ser.step = 1)
    (hfit : InInt (ser.cond - tl)) :
    let x := floori (toInt (ser.cond - tl)) ts
    let found := if x < 0 then none else if x > q then some (q * ts + tl) else some (x * ts + tl)
    (found = none → ser.toCond (strided tl (q * ts + tl) ts) = ∅) ∧
      ∀ y, found = some y → IsGreatest (ser.toCond (strided tl (q * ts + tl) ts)) y := by
  rw [toInt_of_inInt hfit]
  intro x found
  have hx : ∀ k, k ≤ x ↔ k * ts + tl ≤ ser.cond := fun k => by
    rw [le_floori_iff hts]
    constructor <;> intro h <;> linarith
  have hmem : ∀ k, k * ts + tl ∈ ser.toCond (strided tl (q * ts + tl) ts) ↔
      0 ≤ k ∧ k ≤ q ∧ k ≤ x := fun k => by
    simp only [Iter.toCond, Set.mem_ofPred_eq, mem_strided_mul hts, hx, h1]
    simp [and_assoc]
  have hfound : found = if x < 0 then none else some (min x q * ts + tl) := by
    dsimp only [found]
    split_ifs with h0 h2
    · rfl
    · rw [min_eq_right (by omega)]
    · rw [min_eq_left (by omega)]
  rw [hfound]
  split_ifs with hlt
  · refine ⟨fun _ => Set.eq_empty_of_forall_notMem fun y hy => ?_, by simp⟩
    obtain ⟨k, rfl⟩ := exists_mul_of_mem_strided hy.1
    have := (hmem k).mp hy
    omega
  · refine ⟨by simp, fun y hy => ?_⟩
    obtain rfl : min x q * ts + tl = y := by simpa using hy
    refine ⟨(hmem _).mpr (by omega), fun z hz => ?_⟩
    obtain ⟨k, rfl⟩ := exists_mul_of_mem_strided hz.1
    have hz' := (hmem k).mp hz
    have := mul_le_mul_of_nonneg_right (show k ≤ min x q by omega) hts.le
    linarith

theorem width1_parInit_search (hts : 0 < ts)
    (hfit : ∀ i, tl ≤ i → i ≤ tu → InInt (i - ser.init)) :
    let found := (loopValues tl (tu + 1) ts).find?
      fun i => ¬ i < ser.init ∧ (toInt (i - ser.init)).tmod ser.step = 0
    (found = none → ser.fromInit (strided tl tu ts) = ∅) ∧
      ∀ x, found = some x → IsLeast (ser.fromInit (strided tl tu ts)) x := by
  intro found
  have hmem : ∀ i, i ∈ ser.fromInit (strided tl tu ts) ↔ i ∈ loopValues tl (tu + 1) ts ∧
      decide (¬ i < ser.init ∧ (toInt (i - ser.init)).tmod ser.step = 0) = true := fun i => by
    rw [mem_loopValues_of_pos hts, decide_eq_true_eq, tmod_eq_zero_iff, not_lt, Int.lt_add_one_iff]
    refine and_congr_right fun hi => ?_
    rw [toInt_of_inInt (hfit i hi.1 hi.2.1)]
  refine ⟨fun h => ?_, fun x h => ?_⟩
  · refine Set.eq_empty_of_forall_notMem fun i hi => ?_
    obtain ⟨h1, h2⟩ := (hmem i).mp hi
    exact List.find?_eq_none.mp h i h1 h2
  · obtain ⟨h1, h2, h3⟩ := find?_first (loopValues_pairwise_lt hts) h
    refine ⟨(hmem x).mpr ⟨h1, h2⟩, fun y hy => ?_⟩
    obtain ⟨hy1, hy2⟩ := (hmem y).mp hy
    rcases h3 y hy1 hy2 with rfl | hlt
    · exact le_rfl
    · exact hlt.le

theorem width1_parCond_search (hts : 0 < ts) (hd : ts ∣ tu - tl)
    (hfit : ∀ i, tl ≤ i → i ≤ tu → InInt (i - ser.init)) :
    let found := (loopValues tu (tl - 1) (-ts)).find?
      fun i => ¬ i > ser.cond ∧ (toInt (i - ser.init)).tmod ser.step = 0
    (found = none → ser.toCond (strided tl tu ts) = ∅) ∧
      ∀ x, found = some x → IsGreatest (ser.toCond (strided tl tu ts)) x := by
  intro found
  have hmem : ∀ i, i ∈ ser.toCond (strided tl tu ts) ↔ i ∈ loopValues tu (tl - 1) (-ts) ∧
      decide (¬ i > ser.cond ∧ (toInt (i - ser.init)).tmod ser.step = 0) = true := fun i => by
    have hdvd : ts ∣ i - tl ↔ ts ∣ i - tu := by
      rw [← dvd_sub_left hd]
      ring_nf
    rw [mem_loopValues_of_neg (by omega), decide_eq_true_eq, tmod_eq_zero_iff, not_lt, neg_dvd,
      ← hdvd, Int.sub_one_lt_iff]
    constructor
    · rintro ⟨⟨h0, h1, h2⟩, h3⟩
      rw [toInt_of_inInt (hfit i h0 h1)]
      exact ⟨⟨h0, h1, h2⟩, h3⟩
    · rintro ⟨⟨h0, h1, h2⟩, h3⟩
      rw [toInt_of_inInt (hfit i h0 h1)] at h3
      exact ⟨⟨h0, h1, h2⟩, h3⟩
  refine ⟨fun h => ?_, fun x h => ?_⟩
  · refine Set.eq_empty_of_forall_notMem fun i hi => ?_
    obtain ⟨h1, h2⟩ := (hmem i).mp hi
    exact List.find?_eq_none.mp h i h1 h2
  · obtain ⟨h1, h2, h3⟩ := find?_first (loopValues_pairwise_gt (by omega)) h
    refine ⟨(hmem x).mpr ⟨h1, h2⟩, fun y hy => ?_⟩
    obtain ⟨hy1, hy2⟩ := (hmem y).mp hy
    rcases h3 y hy1 hy2 with rfl | hlt
    · exact le_rfl
    · exact hlt.le

/-- What `_XMP_sched_loop_template_width_1` returns for a chunk. -/
structure IsWidth1Cut (ser : Iter) (S : Set ℤ) (ts : ℤ) (par : Iter) : Prop where
  init : IsLeast (ser.fromInit S) par.init
  cond : IsGreatest (ser.toCond S) par.cond
  step : par.step = lcm ser.step ts

/-- Both branches end in a start and a bound found independently of each other. -/
theorem isWidth1Cut_of_found {S : Set ℤ} {parInit parCond : Option ℤ} {st : ℤ}
    (hi : (parInit = none → ser.fromInit S = ∅) ∧
      ∀ x, parInit = some x → IsLeast (ser.fromInit S) x)
    (hc : (parCond = none → ser.toCond S = ∅) ∧
      ∀ x, parCond = some x → IsGreatest (ser.toCond S) x)
    (hst : st = lcm ser.step ts) :
    let cut := parInit.bind fun a => parCond.bind fun b => some (Iter.mk a b st)
    (cut = none → ser.fromInit S = ∅ ∨ ser.toCond S = ∅) ∧
      ∀ par, cut = some par → IsWidth1Cut ser S ts par := by
  intro cut
  cases parInit with
  | none => exact ⟨fun _ => Or.inl (hi.1 rfl), by simp [cut]⟩
  | some a =>
    cases parCond with
    | none => exact ⟨fun _ => Or.inr (hc.1 rfl), by simp [cut]⟩
    | some b =>
      refine ⟨by simp [cut], fun par hpar => ?_⟩
      obtain rfl : Iter.mk a b st = par := by simpa [cut] using hpar
      exact ⟨hi.2 a rfl, hc.2 b rfl, hst⟩

theorem schedLoopTemplateWidth1_eq (hts : 0 < ts) :
    schedLoopTemplateWidth1 ser tl tu ts = .ok (width1Cut ser tl tu ts) := if_neg hts.ne'

theorem width1Cut_spec (hts : 0 < ts) (hts' : InInt ts) (hle : tl ≤ tu)
    (hd : ts ∣ tu - tl) (hfit : ser.CutFits tl tu) :
    (width1Cut ser tl tu ts = none →
      ser.fromInit (strided tl tu ts) = ∅ ∨ ser.toCond (strided tl tu ts) = ∅) ∧
    ∀ par, width1Cut ser tl tu ts = some par → IsWidth1Cut ser (strided tl tu ts) ts par := by
  unfold width1Cut
  dsimp only
  by_cases h1 : ser.step = 1
  · obtain ⟨q, hq⟩ := id hd
    obtain rfl : tu = q * ts + tl := by linarith
    have hq0 : 0 ≤ q := by
      by_contra hc
      nlinarith
    have hmax : floori (q * ts + tl - tl) ts = q := by
      refine le_antisymm ?_ ?_
      · have := (le_floori_iff hts).mp (le_refl (floori (q * ts + tl - tl) ts))
        rw [add_sub_cancel_right] at this ⊢
        exact (mul_le_mul_iff_of_pos_right hts).mp this
      · rw [le_floori_iff hts]
        linarith
    rw [if_pos h1, hmax]
    have hlcm : ts = lcm ser.step ts := by
      rw [h1, lcm_eq one_pos hts (by rwa [one_mul]), Int.one_lcm, Int.natAbs_of_nonneg hts.le]
    exact isWidth1Cut_of_found (width1_parInit_of_step_one hts hq0 h1 (hfit.division h1).1)
      (width1_parCond_of_step_one hts hq0 h1 (hfit.division h1).2) hlcm
  · rw [if_neg h1]
    split_ifs with hout
    · refine ⟨fun _ => ?_, by simp⟩
      rcases hout with h | h
      · refine Or.inl (Set.eq_empty_of_forall_notMem ?_)
        rintro x ⟨⟨-, h2, -⟩, h3, -⟩
        omega
      · refine Or.inr (Set.eq_empty_of_forall_notMem ?_)
        rintro x ⟨⟨h2, -⟩, h3, -⟩
        omega
    · have hnear := hfit.search h1 (by omega) (by omega)
      exact isWidth1Cut_of_found (width1_parInit_search hts hnear)
        (width1_parCond_search hts hd hnear) rfl

theorem IsWidth1Cut.step_dvd (hts : 0 < ts) (hlcm : InInt (ser.step * ts))
    (h : IsWidth1Cut ser (strided tl tu ts) ts par) : par.step ∣ par.cond - par.init := by
  obtain ⟨⟨⟨-, -, hi1⟩, -, hi2⟩, -⟩ := h.init
  obtain ⟨⟨⟨-, -, hc1⟩, -, hc2⟩, -⟩ := h.cond
  rw [h.step, lcm_dvd_iff hts hlcm]
  constructor
  · have := dvd_sub hc2 hi2
    rwa [sub_sub_sub_cancel_right] at this
  · have := dvd_sub hc1 hi1
    rwa [sub_sub_sub_cancel_right] at this

theorem IsWidth1Cut.spans_iff (hts : 0 < ts) (hlcm : InInt (ser.step * ts))
    (h : IsWidth1Cut ser (strided tl tu ts) ts par) (x : ℤ) :
    par.Spans x ↔ x ∈ strided tl tu ts ∧ ser.Spans x := by
  obtain ⟨⟨⟨hi1, -, hi2⟩, hi3, hi4⟩, hmin⟩ := h.init
  obtain ⟨⟨⟨-, hc1, -⟩, hc2, -⟩, hmax⟩ := h.cond
  rw [Iter.Spans, h.step, lcm_dvd_iff hts hlcm]
  constructor
  · rintro ⟨h1, h2, h3, h4⟩
    have h3' := dvd_add h3 hi4
    have h4' := dvd_add h4 hi2
    rw [sub_add_sub_cancel] at h3' h4'
    exact ⟨⟨by omega, by omega, h4'⟩, by omega, by omega, h3'⟩
  · rintro ⟨⟨h1, h2, h3⟩, h4, h5, h6⟩
    have h3' := dvd_sub h3 hi2
    have h6' := dvd_sub h6 hi4
    rw [sub_sub_sub_cancel_right] at h3' h6'
    exact ⟨hmin ⟨⟨h1, h2, h3⟩, h4, h6⟩, hmax ⟨⟨h1, h2, h3⟩, h5, h6⟩, h6', h3'⟩

end

/-! ## The skeleton -/

def direction (reverseIter : Bool) (x y : ℤ) : Prop := if reverseIter then y < x else x < y

instance (reverseIter : Bool) : Std.Irrefl (direction reverseIter) where
  irrefl x := by simp [direction]

instance (reverseIter : Bool) : Std.Antisymm (direction reverseIter) where
  antisymm x y h h' := by
    unfold direction at h h'
    split_ifs at h h' <;> omega

theorem mem_finalizeIter {par : Iter} (hs : 0 < par.step) (hd : par.step ∣ par.cond - par.init)
    (reverseIter : Bool) (x : ℤ) : x ∈ (finalizeIter par reverseIter).values ↔ par.Spans x := by
  cases reverseIter with
  | false =>
    simp only [finalizeIter, Iter.values, Iter.Spans, Bool.false_eq_true, if_false]
    rw [mem_loopValues_of_pos hs, Int.lt_add_one_iff]
  | true =>
    simp only [finalizeIter, Iter.values, Iter.Spans, if_true]
    rw [mem_loopValues_of_neg (by omega), neg_dvd, Int.sub_one_lt_iff, ← dvd_add_left hd,
      sub_add_sub_cancel]

theorem Iter.values_direction {it : Iter} (hs : it.step ≠ 0) :
    it.values.Pairwise (direction (decide (it.step < 0))) := by
  unfold direction Iter.values
  rcases lt_or_gt_of_ne hs with h | h
  · simpa [h] using loopValues_pairwise_gt h
  · simpa [not_lt.mpr h.le] using loopValues_pairwise_lt h

theorem Iter.values_nodup {it : Iter} (hs : it.step ≠ 0) : it.values.Nodup := loopValues_nodup hs

theorem Iter.scheduled_direction {ser : Iter} (hs : ser.step ≠ 0) :
    ser.scheduled.Pairwise (direction (decide (ser.step < 0))) := by
  unfold Iter.scheduled
  split_ifs
  · simp
  · exact Iter.values_direction hs

theorem finalizeIter_direction {par : Iter} (hs : 0 < par.step) (reverseIter : Bool) :
    (finalizeIter par reverseIter).values.Pairwise (direction reverseIter) := by
  cases reverseIter with
  | false =>
    have h := @Iter.values_direction (finalizeIter par false) (by simpa [finalizeIter] using hs.ne')
    simpa [finalizeIter, not_lt.mpr hs.le] using h
  | true =>
    have h := @Iter.values_direction (finalizeIter par true) (by simpa [finalizeIter] using hs.ne')
    simpa [finalizeIter, hs] using h

/-- What a scheduler's cut must provide: nothing where no index satisfies `Q`, and
otherwise local parameters whose values `f` carries to the indices satisfying `Q`. -/
def CutRuns (f : ℤ → ℤ) (Q : ℤ → Prop) : Option Iter → Prop
  | none => ∀ x, ¬ Q x
  | some par => 0 < par.step ∧ par.step ∣ par.cond - par.init ∧
      StrictMonoOn f {l | par.Spans l} ∧ ∀ x, (∃ l, par.Spans l ∧ f l = x) ↔ Q x

theorem Iter.values_empty : Iter.empty.values = [] := rfl

/-- The skeleton adds the direction of the serial loop to what its cut provides. -/
theorem schedLoop_exec {t : Template d n} {cut : Iter → Except String (Option Iter)} {ser : Iter}
    {f : ℤ → ℤ} {Q : Iter → ℤ → Prop} {tl tu ts : ℤ} (ho : t.isOwner = true) (hs : ser.step ≠ 0)
    (hfit : ser.Fits tl tu ts)
    (hcut : ∀ norm, normSchedParams ser = .ok (norm, decide (ser.step < 0)) →
      norm.step = |ser.step| → norm.CutFits tl tu →
        ∃ par, cut norm = .ok par ∧ CutRuns f (Q norm) par) :
    ∃ norm it, norm.step = |ser.step| ∧ (∀ x, norm.Spans x ↔ x ∈ ser.scheduled) ∧
      schedLoop t cut ser = .ok it ∧
      (it.values.map f).Pairwise (direction (decide (ser.step < 0))) ∧
      ∀ x, x ∈ it.values.map f ↔ Q norm x := by
  obtain ⟨norm, hnorm, hstep, hcutFits, hspan⟩ := normSchedParams_spec hs hfit
  obtain ⟨par, hpar, hruns⟩ := hcut norm hnorm hstep hcutFits
  simp only [schedLoop, ho, if_true, hnorm, hpar, bind, Except.bind]
  cases par with
  | none =>
    refine ⟨norm, .empty, hstep, hspan, rfl, by simp [Iter.values_empty], fun x => ?_⟩
    simpa [Iter.values_empty] using hruns x
  | some par =>
    obtain ⟨hpos, hd, hmono, hQ⟩ := hruns
    have hmem := mem_finalizeIter hpos hd (decide (ser.step < 0))
    refine ⟨norm, _, hstep, hspan, rfl, ?_, fun x => ?_⟩
    · refine List.pairwise_map.mpr ?_
      refine (finalizeIter_direction hpos _).imp_of_mem fun {a b} ha hb hab => ?_
      have ha' := (hmem a).mp ha
      have hb' := (hmem b).mp hb
      unfold direction at hab ⊢
      split_ifs at hab ⊢
      · exact hmono hb' ha' hab
      · exact hmono ha' hb' hab
    · rw [List.mem_map, ← hQ]
      exact exists_congr fun l => and_congr_left' (hmem l)

end OmniCompiler.Xmp

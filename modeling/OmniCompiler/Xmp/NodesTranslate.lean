import OmniCompiler.Arithmetic.Box
import OmniCompiler.Xmp.NodesRank

/-!
# Ranks of a reference to nodes (`xmp_nodes.c`)

A reference names a coordinate in some dimensions and leaves the others open. The translation into
ranks fills in the open coordinates in the array it is given, which its recursive calls share.
-/
namespace OmniCompiler.Xmp

open MixedRadix

/-- `rank_array`, with `none` for `_XMP_N_UNSPECIFIED_RANK`. -/
abbrev RankArray := List (Option ℕ)

def openSize : List ℕ → RankArray → ℕ
  | size :: sizes, c :: ra => if c = none then size * openSize sizes ra else openSize sizes ra
  | _, _ => 1

/-- `ref` and `shrink_nodes_size` of the descriptor that `_XMP_init_nodes_ref` allocates. -/
def initNodesRef (n : NodesDesc) (rankArray : RankArray) : RankArray × ℕ :=
  (rankArray, (n.sizes.zip rankArray).foldl
    (fun size d => if d.2 = none then size * d.1 else size) 1)

structure RanksState where
  ranks : ℕ → ℕ
  rankArray : RankArray

/-- The turn of the loop over the dimensions for dimension `d.2`, of size `d.1`; `translate` is
the recursive call. -/
def translateDim (translate : ℕ → ℕ → RanksState → Option RanksState)
    (offset shrinkNodesSize : ℕ) (acc : Bool × RanksState) (d : ℕ × ℕ) :
    Option (Bool × RanksState) :=
  if acc.2.rankArray[d.2]? = some none then do
    let newShrinkNodesSize := shrinkNodesSize / d.1
    let st ← (List.range d.1).foldlM (fun st j =>
      translate (offset + j * newShrinkNodesSize) newShrinkNodesSize
        { st with rankArray := st.rankArray.set d.2 (some j) }) acc.2
    some (false, st)
  else some acc

/-- `_XMP_translate_nodes_rank_array_to_ranks` with `ranks + offset`; the fuel bounds the depth of
the recursion. -/
def translateNodesRankArrayToRanks (n : NodesDesc) : ℕ → ℕ → ℕ → RanksState → Option RanksState
  | 0, _, _, _ => none
  | fuel + 1, offset, shrinkNodesSize, st => do
    let (calcFlag, st) ← n.sizes.zipIdx.foldlM (translateDim
      (fun offset size st => translateNodesRankArrayToRanks n fuel offset size st)
      offset shrinkNodesSize) (true, st)
    if calcFlag then
      -- every coordinate is specified here
      some { st with
        ranks := Function.update st.ranks offset
          (calcLinearRank n (st.rankArray.map fun c => c.getD 0)) }
    else some st

/-! ## The writes of the translation -/

def lasts : List ℕ → RankArray → List ℕ
  | size :: sizes, c :: ra => c.getD (size - 1) :: lasts sizes ra
  | _, _ => []

/-- Slots and coordinates, in the order of the writes. Once the first call of the loop over a
dimension has returned, no later dimension is open any more. -/
def rankWrites : List ℕ → RankArray → List (ℕ × List ℕ)
  | _ :: sizes, some c :: ra => (rankWrites sizes ra).map fun w => (w.1, c :: w.2)
  | size :: sizes, none :: ra =>
    (rankWrites sizes ra).map (fun w => (w.1, 0 :: w.2)) ++
      (List.range' 1 (size - 1)).map fun j => (j * openSize sizes ra, j :: lasts sizes ra)
  | _, _ => [(0, [])]

def applyWrites (ws : List (ℕ × ℕ)) (mem : ℕ → ℕ) : ℕ → ℕ :=
  ws.foldl (fun mem w => Function.update mem w.1 w.2) mem

theorem applyWrites_append (ws ws' : List (ℕ × ℕ)) (mem : ℕ → ℕ) :
    applyWrites (ws ++ ws') mem = applyWrites ws' (applyWrites ws mem) := List.foldl_append

theorem applyWrites_of_notMem {ws : List (ℕ × ℕ)} {y : ℕ} (hy : y ∉ ws.map Prod.fst)
    (mem : ℕ → ℕ) : applyWrites ws mem y = mem y := by
  induction ws generalizing mem with
  | nil => rfl
  | cons w ws ih =>
    rw [List.map_cons, List.mem_cons, not_or] at hy
    rw [applyWrites, List.foldl_cons, ← applyWrites, ih hy.2, Function.update_of_ne hy.1]

theorem map_applyWrites {ws : List (ℕ × ℕ)} (h : (ws.map Prod.fst).Nodup) (mem : ℕ → ℕ) :
    (ws.map Prod.fst).map (applyWrites ws mem) = ws.map Prod.snd := by
  induction ws generalizing mem with
  | nil => rfl
  | cons w ws ih =>
    rw [List.map_cons, List.nodup_cons] at h
    have hrest := ih h.2 (Function.update mem w.1 w.2)
    have hhead : applyWrites ws (Function.update mem w.1 w.2) w.1 = w.2 := by
      rw [applyWrites_of_notMem h.1, Function.update_self]
    simp only [List.map_cons, applyWrites, List.foldl_cons] at hrest hhead ⊢
    rw [hrest, hhead]

/-! ## What a call does -/

theorem foldlM_translateDim {translate : ℕ → ℕ → RanksState → Option RanksState}
    {offset shrinkNodesSize : ℕ} {acc : Bool × RanksState} {ds : List (ℕ × ℕ)}
    (h : ∀ d ∈ ds, acc.2.rankArray[d.2]? ≠ some none) :
    ds.foldlM (translateDim translate offset shrinkNodesSize) acc = some acc := by
  induction ds with
  | nil => rfl
  | cons d ds ih =>
    rw [List.foldlM_cons, translateDim, if_neg (h d (by simp))]
    exact ih fun d' hd' => h d' (by simp [hd'])

theorem getElem?_map_some_ne (cs : List ℕ) (i : ℕ) : (cs.map some)[i]? ≠ some none := by
  simp [List.getElem?_map]

theorem map_getD_map_some (cs : List ℕ) : (cs.map some).map (fun c => c.getD 0) = cs := by
  rw [List.map_map]
  exact List.map_id cs

theorem translate_specified (n : NodesDesc) {fuel : ℕ} (hfuel : 0 < fuel) (offset size : ℕ)
    (ranks : ℕ → ℕ) (cs : List ℕ) :
    translateNodesRankArrayToRanks n fuel offset size ⟨ranks, cs.map some⟩ =
      some ⟨Function.update ranks offset (calcLinearRank n cs), cs.map some⟩ := by
  obtain ⟨fuel, rfl⟩ := Nat.exists_eq_succ_of_ne_zero (Nat.ne_of_gt hfuel)
  rw [translateNodesRankArrayToRanks, foldlM_translateDim fun d _ => getElem?_map_some_ne cs d.2]
  simp only [Option.bind_eq_bind, Option.bind_some, if_true, map_getD_map_some]

theorem foldlM_translate_specified (n : NodesDesc) {fuel : ℕ} (hfuel : 0 < fuel)
    (offset size : ℕ) (pre post : List ℕ) (js : List ℕ) (ranks : ℕ → ℕ) (x : ℕ) :
    js.foldlM (fun st j => translateNodesRankArrayToRanks n fuel (offset + j * size) size
        { st with rankArray := st.rankArray.set pre.length (some j) })
        ⟨ranks, (pre ++ x :: post).map some⟩ =
      some ⟨applyWrites (js.map fun j => (offset + j * size, calcLinearRank n (pre ++ j :: post)))
        ranks, (pre ++ js.getLastD x :: post).map some⟩ := by
  induction js generalizing ranks x with
  | nil => rfl
  | cons j js ih =>
    have hset : ((pre ++ x :: post).map some).set pre.length (some j) =
        (pre ++ j :: post).map some := by
      rw [List.map_append, List.map_append, List.map_cons, List.map_cons,
        List.set_append_right _ _ (by simp)]
      simp
    rw [List.foldlM_cons]
    simp only [hset]
    rw [translate_specified n hfuel]
    simp only [Option.bind_eq_bind, Option.bind_some]
    rw [ih, List.map_cons, applyWrites, applyWrites, List.foldl_cons, List.getLastD_cons]

theorem openSize_pos {sizes : List ℕ} (hpos : ∀ s ∈ sizes, 0 < s) (ra : RankArray) :
    0 < openSize sizes ra := by
  induction sizes generalizing ra with
  | nil => exact one_pos
  | cons s sizes ih =>
    cases ra with
    | nil => exact one_pos
    | cons c ra =>
      have hrest := ih (fun t ht => hpos t (by simp [ht])) ra
      have hs := hpos s (by simp)
      rw [openSize]
      split_ifs
      · positivity
      · exact hrest

theorem range_eq_zero_cons {s : ℕ} (hs : 0 < s) : List.range s = 0 :: List.range' 1 (s - 1) := by
  obtain ⟨s, rfl⟩ := Nat.exists_eq_succ_of_ne_zero hs.ne'
  rw [List.range_eq_range', List.range'_succ]
  rfl

theorem getLastD_range' (k : ℕ) : (List.range' 1 k).getLastD 0 = k := by
  cases k with
  | zero => rfl
  | succ k => rw [List.range'_concat, List.getLastD_concat, one_mul, add_comm]

/-- The whole effect of a call: its writes, and no coordinate left open. -/
theorem translate_eq (n : NodesDesc) {ra : RankArray} {sizesBefore sizes pre : List ℕ} {fuel : ℕ}
    (hn : n.sizes = sizesBefore ++ sizes) (hpre : sizesBefore.length = pre.length)
    (hra : ra.length = sizes.length) (hpos : ∀ s ∈ sizes, 0 < s) (hfuel : ra.count none < fuel)
    (offset : ℕ) (ranks : ℕ → ℕ) :
    translateNodesRankArrayToRanks n fuel offset (openSize sizes ra) ⟨ranks, pre.map some ++ ra⟩ =
      some ⟨applyWrites ((rankWrites sizes ra).map fun w =>
        (offset + w.1, calcLinearRank n (pre ++ w.2))) ranks,
        (pre ++ lasts sizes ra).map some⟩ := by
  induction ra generalizing sizesBefore sizes pre fuel offset ranks with
  | nil =>
    obtain rfl := List.length_eq_zero_iff.mp hra.symm
    rw [List.append_nil, translate_specified n (by omega)]
    simp [rankWrites, lasts, applyWrites]
  | cons c ra ih =>
    obtain ⟨s, sizes, rfl⟩ := List.exists_cons_of_length_eq_add_one hra.symm
    have hn' : n.sizes = (sizesBefore ++ [s]) ++ sizes := by simp [hn]
    have hra' : ra.length = sizes.length := by simpa using hra
    have hpos' : ∀ t ∈ sizes, 0 < t := fun t ht => hpos t (by simp [ht])
    have hpre' : ∀ x, (sizesBefore ++ [s]).length = (pre ++ [x]).length := by simp [hpre]
    cases c with
    | some c =>
      have hsplit : pre.map some ++ some c :: ra = (pre ++ [c]).map some ++ ra := by simp
      rw [hsplit, openSize, if_neg (by simp), ih hn' (hpre' c) hra' hpos' (by simpa using hfuel)]
      simp [rankWrites, lasts, Function.comp_def]
    | none =>
      have hs : 0 < s := hpos s (by simp)
      rw [List.count_cons_self] at hfuel
      obtain ⟨fuel, rfl⟩ := Nat.exists_eq_succ_of_ne_zero (Nat.ne_of_gt (Nat.zero_lt_of_lt hfuel))
      have hfuel' : ra.count none < fuel := by omega
      have hdiv : openSize (s :: sizes) (none :: ra) / s = openSize sizes ra := by
        rw [openSize, if_pos rfl, Nat.mul_div_cancel_left _ hs]
      have hzip : n.sizes.zipIdx = sizesBefore.zipIdx ++
          (s, pre.length) :: sizes.zipIdx (pre.length + 1) := by
        rw [hn, List.zipIdx_append, List.zipIdx_cons, hpre, zero_add]
      have hset : (pre.map some ++ none :: ra).set pre.length (some 0) =
          (pre ++ [0]).map some ++ ra := by
        rw [List.set_append_right _ _ (by simp)]
        simp
      have hbefore : ∀ d ∈ sizesBefore.zipIdx, (pre.map some ++ none :: ra)[d.2]? ≠ some none := by
        intro d hd
        have hlt := List.snd_lt_of_mem_zipIdx hd
        rw [List.getElem?_append_left (by simp; omega)]
        exact getElem?_map_some_ne pre d.2
      have hhere : (pre.map some ++ none :: ra)[pre.length]? = some none := by
        rw [List.getElem?_append_right (by simp)]
        simp
      rw [translateNodesRankArrayToRanks, hzip, List.foldlM_append, foldlM_translateDim hbefore]
      simp only [Option.bind_eq_bind, Option.bind_some, List.foldlM_cons]
      rw [translateDim, if_pos hhere]
      simp only [Option.bind_eq_bind, hdiv, range_eq_zero_cons hs, List.foldlM_cons, hset, zero_mul,
        add_zero]
      rw [ih hn' (hpre' 0) hra' hpos' hfuel']
      simp only [Option.bind_some, List.append_assoc, List.singleton_append]
      rw [foldlM_translate_specified n (by omega), getLastD_range']
      simp only [Option.bind_some]
      rw [foldlM_translateDim fun d _ => getElem?_map_some_ne _ d.2]
      simp only [Option.bind_some, Bool.false_eq_true, if_false]
      simp [rankWrites, lasts, applyWrites_append, Function.comp_def]

theorem initNodesRef_eq (n : NodesDesc) {rankArray : RankArray}
    (hra : rankArray.length = n.sizes.length) :
    initNodesRef n rankArray = (rankArray, openSize n.sizes rankArray) := by
  have hfold : ∀ (sizes : List ℕ) (ra : RankArray) (m : ℕ), ra.length = sizes.length →
      (sizes.zip ra).foldl (fun size d => if d.2 = none then size * d.1 else size) m =
        m * openSize sizes ra := by
    intro sizes
    induction sizes with
    | nil => intro ra m h; simp [openSize]
    | cons s sizes ih =>
      intro ra m h
      obtain ⟨c, ra, rfl⟩ := List.exists_cons_of_length_eq_add_one h
      rw [List.zip_cons_cons, List.foldl_cons, ih ra _ (by simpa using h), openSize]
      split_ifs
      · rw [mul_assoc]
      · rfl
  rw [initNodesRef, hfold n.sizes rankArray 1 hra, one_mul]

/-! ## Which slots are written -/

def openDims (sizes : List ℕ) (ra : RankArray) : ℕ :=
  (sizes.zip ra).countP fun d => d.2 = none ∧ 1 < d.1

theorem openDims_cons_some (s c : ℕ) (sizes : List ℕ) (ra : RankArray) :
    openDims (s :: sizes) (some c :: ra) = openDims sizes ra := by
  simp [openDims]

theorem openDims_cons_none (s : ℕ) (sizes : List ℕ) (ra : RankArray) :
    openDims (s :: sizes) (none :: ra) = openDims sizes ra + if 1 < s then 1 else 0 := by
  simp [openDims, List.countP_cons]

def choices (size : ℕ) : Option ℕ → List ℕ
  | none => List.range size
  | some c => [c]

@[simp] theorem openSize_cons_some (s c : ℕ) (sizes : List ℕ) (ra : RankArray) :
    openSize (s :: sizes) (some c :: ra) = openSize sizes ra := by
  simp [openSize]

@[simp] theorem openSize_cons_none (s : ℕ) (sizes : List ℕ) (ra : RankArray) :
    openSize (s :: sizes) (none :: ra) = s * openSize sizes ra := by
  simp [openSize]

theorem fst_lt_of_mem_rankWrites {sizes : List ℕ} (hpos : ∀ s ∈ sizes, 0 < s) {ra : RankArray}
    (hra : ra.length = sizes.length) {w : ℕ × List ℕ} (hw : w ∈ rankWrites sizes ra) :
    w.1 < openSize sizes ra := by
  induction sizes generalizing ra w with
  | nil =>
    obtain rfl := List.length_eq_zero_iff.mp hra
    obtain rfl : w = (0, []) := by simpa [rankWrites] using hw
    exact one_pos
  | cons s sizes ih =>
    obtain ⟨c, ra, rfl⟩ := List.exists_cons_of_length_eq_add_one hra
    have hra' : ra.length = sizes.length := by simpa using hra
    have hpos' : ∀ t ∈ sizes, 0 < t := fun t ht => hpos t (by simp [ht])
    have hs : 0 < s := hpos s (by simp)
    have hopen := openSize_pos hpos' ra
    cases c with
    | some c =>
      obtain ⟨w', hw', rfl⟩ := List.mem_map.mp hw
      rw [openSize_cons_some]
      have hlt := ih hpos' hra' hw'
      exact hlt
    | none =>
      rw [openSize_cons_none]
      rcases List.mem_append.mp hw with hw | hw
      · obtain ⟨w', hw', rfl⟩ := List.mem_map.mp hw
        exact (ih hpos' hra' hw').trans_le (Nat.le_mul_of_pos_left _ hs)
      · obtain ⟨j, hj, rfl⟩ := List.mem_map.mp hw
        rw [List.mem_range'_1] at hj
        exact Nat.mul_lt_mul_of_pos_right (by omega) hopen

theorem rankWrites_of_openDims_zero {sizes : List ℕ} (hpos : ∀ s ∈ sizes, 0 < s) {ra : RankArray}
    (hra : ra.length = sizes.length) (h : openDims sizes ra = 0) :
    openSize sizes ra = 1 ∧ rankWrites sizes ra = [(0, lasts sizes ra)] := by
  induction sizes generalizing ra with
  | nil =>
    obtain rfl := List.length_eq_zero_iff.mp hra
    exact ⟨rfl, rfl⟩
  | cons s sizes ih =>
    obtain ⟨c, ra, rfl⟩ := List.exists_cons_of_length_eq_add_one hra
    have hra' : ra.length = sizes.length := by simpa using hra
    have hpos' : ∀ t ∈ sizes, 0 < t := fun t ht => hpos t (by simp [ht])
    have hs : 0 < s := hpos s (by simp)
    cases c with
    | some c =>
      rw [openDims_cons_some] at h
      obtain ⟨ih1, ih2⟩ := ih hpos' hra' h
      exact ⟨by rw [openSize_cons_some, ih1], by simp [rankWrites, ih2, lasts]⟩
    | none =>
      rw [openDims_cons_none] at h
      obtain ⟨ih1, ih2⟩ := ih hpos' hra' (by omega)
      obtain rfl : s = 1 := by
        by_contra hne
        rw [if_pos (by omega)] at h
        omega
      exact ⟨by rw [openSize_cons_none, ih1], by simp [rankWrites, ih2, lasts]⟩

theorem one_lt_openSize {sizes : List ℕ} (hpos : ∀ s ∈ sizes, 0 < s) {ra : RankArray}
    (hra : ra.length = sizes.length) (h : 0 < openDims sizes ra) : 1 < openSize sizes ra := by
  induction sizes generalizing ra with
  | nil => simp [openDims] at h
  | cons s sizes ih =>
    obtain ⟨c, ra, rfl⟩ := List.exists_cons_of_length_eq_add_one hra
    have hra' : ra.length = sizes.length := by simpa using hra
    have hpos' : ∀ t ∈ sizes, 0 < t := fun t ht => hpos t (by simp [ht])
    have hs : 0 < s := hpos s (by simp)
    cases c with
    | some c =>
      rw [openDims_cons_some] at h
      rw [openSize_cons_some]
      exact ih hpos' hra' h
    | none =>
      rw [openDims_cons_none] at h
      rw [openSize_cons_none]
      by_cases hs1 : 1 < s
      · exact hs1.trans_le (Nat.le_mul_of_pos_right s (openSize_pos hpos' ra))
      · rw [if_neg hs1, add_zero] at h
        exact (ih hpos' hra' h).trans_le (Nat.le_mul_of_pos_left _ hs)

theorem exists_slot_notMem {sizes : List ℕ} (hpos : ∀ s ∈ sizes, 0 < s) {ra : RankArray}
    (hra : ra.length = sizes.length) (h : 1 < openDims sizes ra) :
    ∃ x < openSize sizes ra, x ∉ (rankWrites sizes ra).map Prod.fst := by
  induction sizes generalizing ra with
  | nil => simp [openDims] at h
  | cons s sizes ih =>
    obtain ⟨c, ra, rfl⟩ := List.exists_cons_of_length_eq_add_one hra
    have hra' : ra.length = sizes.length := by simpa using hra
    have hpos' : ∀ t ∈ sizes, 0 < t := fun t ht => hpos t (by simp [ht])
    have hs : 0 < s := hpos s (by simp)
    cases c with
    | some c =>
      rw [openDims_cons_some] at h
      obtain ⟨x, hx, hmem⟩ := ih hpos' hra' h
      refine ⟨x, by rwa [openSize_cons_some], ?_⟩
      rw [rankWrites, List.map_map]
      exact hmem
    | none =>
      rw [openDims_cons_none] at h
      by_cases hs1 : 1 < s
      · -- the slot after the first of the second round
        rw [if_pos hs1] at h
        have hopen := one_lt_openSize hpos' hra' (by omega)
        refine ⟨openSize sizes ra + 1, ?_, ?_⟩
        · rw [openSize_cons_none]
          nlinarith
        · simp only [rankWrites, List.map_append, List.map_map, List.mem_append, not_or,
            List.mem_map, Function.comp_apply, not_exists, not_and]
          constructor
          · intro w hw heq
            have := fst_lt_of_mem_rankWrites hpos' hra' hw
            omega
          · intro j _ heq
            have hdvd : openSize sizes ra ∣ 1 :=
              (Nat.dvd_add_right (dvd_refl _)).mp (heq ▸ Dvd.intro_left j rfl)
            have := Nat.le_of_dvd one_pos hdvd
            omega
      · obtain rfl : s = 1 := by omega
        rw [if_neg hs1, add_zero] at h
        obtain ⟨x, hx, hmem⟩ := ih hpos' hra' h
        refine ⟨x, by rwa [openSize_cons_none, one_mul], ?_⟩
        simpa [rankWrites] using hmem

theorem rankWrites_of_openDims_le {sizes : List ℕ} (hpos : ∀ s ∈ sizes, 0 < s) {ra : RankArray}
    (hra : ra.length = sizes.length) (h : openDims sizes ra ≤ 1) :
    (rankWrites sizes ra).map Prod.fst = List.range (openSize sizes ra) ∧
      (rankWrites sizes ra).map Prod.snd =
        Alignment.firstFastest (List.zipWith choices sizes ra) := by
  induction sizes generalizing ra with
  | nil =>
    obtain rfl := List.length_eq_zero_iff.mp hra
    exact ⟨rfl, rfl⟩
  | cons s sizes ih =>
    obtain ⟨c, ra, rfl⟩ := List.exists_cons_of_length_eq_add_one hra
    have hra' : ra.length = sizes.length := by simpa using hra
    have hpos' : ∀ t ∈ sizes, 0 < t := fun t ht => hpos t (by simp [ht])
    have hs : 0 < s := hpos s (by simp)
    rw [List.zipWith_cons_cons, Alignment.firstFastest]
    cases c with
    | some c =>
      rw [openDims_cons_some] at h
      obtain ⟨ih1, ih2⟩ := ih hpos' hra' h
      rw [openSize_cons_some, ← ih1, ← ih2, rankWrites, List.map_map, List.map_map]
      refine ⟨rfl, ?_⟩
      rw [List.flatMap_map, List.map_eq_flatMap]
      rfl
    | none =>
      rw [openDims_cons_none] at h
      by_cases hs1 : 1 < s
      · rw [if_pos hs1] at h
        have hzero : openDims sizes ra = 0 := by omega
        obtain ⟨-, ih2⟩ := ih hpos' hra' (by omega)
        obtain ⟨hopen, hwrites⟩ := rankWrites_of_openDims_zero hpos' hra' hzero
        rw [openSize_cons_none, hopen, mul_one, choices, range_eq_zero_cons hs, ← ih2, rankWrites,
          hwrites, hopen]
        simp [Function.comp_def]
      · obtain rfl : s = 1 := by omega
        rw [if_neg hs1, add_zero] at h
        obtain ⟨ih1, ih2⟩ := ih hpos' hra' h
        rw [openSize_cons_none, one_mul, ← ih1, ← ih2, rankWrites]
        refine ⟨by simp, ?_⟩
        rw [List.flatMap_map, Nat.sub_self, List.range'_zero, List.map_nil, List.append_nil,
          List.map_map, List.map_eq_flatMap]
        rfl

/-! ## The ranks of a reference -/

/-- Every entry of `rank_array` is open or a coordinate of its dimension. -/
def NodesDesc.ValidRef (n : NodesDesc) (rankArray : RankArray) : Prop :=
  List.Forall₂ (fun c size => ∀ x, c = some x → x < size) rankArray n.sizes

def Matches (rankArray : RankArray) (cs : List ℕ) : Prop :=
  List.Forall₂ (fun c x => ∀ y, c = some y → x = y) rankArray cs

/-- The first `size` slots are the ranks of the nodes of a reference, each once. -/
def NodesDesc.Fills (n : NodesDesc) (rankArray : RankArray) (size : ℕ) (ranks : ℕ → ℕ) : Prop :=
  ((List.range size).map ranks).Nodup ∧
    ∀ r, r ∈ (List.range size).map ranks ↔
      ∃ cs, InRange cs n.sizes ∧ Matches rankArray cs ∧ r = calcLinearRank n cs

theorem mem_choices {sizes : List ℕ} {ra : RankArray}
    (h : List.Forall₂ (fun c size => ∀ x, c = some x → x < size) ra sizes) {cs : List ℕ} :
    List.Forall₂ (fun x l => x ∈ l) cs (List.zipWith choices sizes ra) ↔
      InRange cs sizes ∧ Matches ra cs := by
  induction h generalizing cs with
  | nil =>
    constructor
    · rintro ⟨⟩
      exact ⟨List.Forall₂.nil, List.Forall₂.nil⟩
    · rintro ⟨⟨⟩, -⟩
      exact List.Forall₂.nil
  | @cons c size ra sizes hc _ ih =>
    have hhead : ∀ x, x ∈ choices size c ↔ x < size ∧ ∀ y, c = some y → x = y := by
      intro x
      cases c with
      | none => simp [choices]
      | some y =>
        have := hc y rfl
        simp only [choices, List.mem_singleton, Option.some.injEq, forall_eq']
        omega
    rw [List.zipWith_cons_cons, List.forall₂_cons_right_iff]
    constructor
    · rintro ⟨x, cs, hx, hcs, rfl⟩
      obtain ⟨h1, h2⟩ := (hhead x).mp hx
      obtain ⟨h3, h4⟩ := ih.mp hcs
      exact ⟨List.Forall₂.cons h1 h3, List.Forall₂.cons h2 h4⟩
    · rintro ⟨h1, h2⟩
      obtain ⟨x, cs, hx, hcs, rfl⟩ := List.forall₂_cons_right_iff.mp h1
      obtain ⟨h3, h4⟩ := List.forall₂_cons.mp h2
      exact ⟨x, cs, (hhead x).mpr ⟨hx, h3⟩, ih.mpr ⟨hcs, h4⟩, rfl⟩

theorem nodup_choices (size : ℕ) (c : Option ℕ) : (choices size c).Nodup := by
  cases c with
  | none => exact List.nodup_range
  | some c => exact List.nodup_singleton c

/-- The ranks are right, whatever the array held before, where at most one open dimension has
more than one node. -/
theorem translate_fills_iff (n : NodesDesc) (hpos : ∀ s ∈ n.sizes, 0 < s) {rankArray : RankArray}
    (hra : n.ValidRef rankArray) {fuel : ℕ} (hfuel : rankArray.count none < fuel) :
    (∀ ranks, ∃ st, translateNodesRankArrayToRanks n fuel 0 (initNodesRef n rankArray).2
        ⟨ranks, (initNodesRef n rankArray).1⟩ = some st ∧
      n.Fills rankArray (initNodesRef n rankArray).2 st.ranks) ↔
    (n.sizes.zip rankArray).countP (fun d => d.2 = none ∧ 1 < d.1) ≤ 1 := by
  have hlen : rankArray.length = n.sizes.length := hra.length_eq
  have hcall : ∀ ranks, translateNodesRankArrayToRanks n fuel 0 (openSize n.sizes rankArray)
      ⟨ranks, rankArray⟩ = some ⟨applyWrites ((rankWrites n.sizes rankArray).map fun w =>
        (w.1, calcLinearRank n w.2)) ranks, (lasts n.sizes rankArray).map some⟩ := by
    intro ranks
    have h := @translate_eq n rankArray [] n.sizes [] fuel rfl rfl hlen hpos hfuel 0 ranks
    simpa using h
  rw [initNodesRef_eq n hlen]
  simp only [hcall, Option.some.injEq, exists_eq_left']
  constructor
  · intro h
    by_contra hc
    obtain ⟨x, hx, hmem⟩ := exists_slot_notMem hpos hlen (show 1 < openDims _ _ by
      rw [openDims]; omega)
    have hslot : x ∉ ((rankWrites n.sizes rankArray).map fun w =>
        (w.1, calcLinearRank n w.2)).map Prod.fst := by
      rw [List.map_map]
      exact hmem
    obtain ⟨-, hall⟩ := h fun _ => n.commSize
    obtain ⟨cs, hcs, -, hr⟩ := (hall _).mp (List.mem_map_of_mem (List.mem_range.mpr hx))
    rw [applyWrites_of_notMem hslot] at hr
    exact absurd (calcLinearRank_lt hcs) (by omega)
  · intro h ranks
    obtain ⟨hfst, hsnd⟩ := rankWrites_of_openDims_le hpos hlen h
    have hfst' : ((rankWrites n.sizes rankArray).map fun w =>
        (w.1, calcLinearRank n w.2)).map Prod.fst = List.range (openSize n.sizes rankArray) := by
      rw [← hfst, List.map_map]
      rfl
    have hslots : (List.range (openSize n.sizes rankArray)).map (applyWrites
        ((rankWrites n.sizes rankArray).map fun w => (w.1, calcLinearRank n w.2)) ranks) =
        (Alignment.firstFastest (List.zipWith choices n.sizes rankArray)).map
          (calcLinearRank n) := by
      rw [← hfst', map_applyWrites (hfst' ▸ List.nodup_range), ← hsnd, List.map_map, List.map_map]
      rfl
    rw [NodesDesc.Fills, hslots]
    refine ⟨?_, fun r => ?_⟩
    · refine List.Nodup.map_on (fun xs hxs ys hys he => ?_) (Alignment.nodup_firstFastest ?_)
      · rw [Alignment.mem_firstFastest, mem_choices hra] at hxs hys
        rw [← calcRankArray_calcLinearRank hxs.1, he, calcRankArray_calcLinearRank hys.1]
      · intro l hl
        rw [← List.map_uncurry_zip_eq_zipWith] at hl
        obtain ⟨⟨size, c⟩, -, rfl⟩ := List.mem_map.mp hl
        exact nodup_choices size c
    · simp only [List.mem_map, Alignment.mem_firstFastest, mem_choices hra]
      constructor
      · rintro ⟨cs, ⟨h1, h2⟩, rfl⟩
        exact ⟨cs, h1, h2, rfl⟩
      · rintro ⟨cs, h1, h2, rfl⟩
        exact ⟨cs, ⟨h1, h2⟩, rfl⟩

/-- A column of a three by two node array. -/
theorem translate_fills_column :
    ∃ st, translateNodesRankArrayToRanks ⟨0, .entire, [3, 2]⟩ 2 0 3
        ⟨fun _ => 0, [none, some 1]⟩ = some st ∧
      (NodesDesc.mk 0 .entire [3, 2]).Fills [none, some 1] 3 st.ranks := by
  have h := @translate_fills_iff ⟨0, .entire, [3, 2]⟩ (by decide) [none, some 1]
    (List.Forall₂.cons (by simp) (List.Forall₂.cons (by simp) List.Forall₂.nil)) 2 (by decide)
  exact h.mpr (by decide) fun _ => 0

/-- All four nodes of a two by two node array: the last slot keeps what it held. -/
theorem translate_leaves_slot :
    ∃ ranks st, translateNodesRankArrayToRanks ⟨0, .entire, [2, 2]⟩ 3 0 4
        ⟨ranks, [none, none]⟩ = some st ∧ (List.range 4).map st.ranks = [0, 2, 3, 9] ∧
      ¬ (NodesDesc.mk 0 .entire [2, 2]).Fills [none, none] 4 st.ranks := by
  refine ⟨fun _ => 9, _, rfl, by decide, ?_⟩
  rintro ⟨-, h⟩
  obtain ⟨cs, hcs, -, hr⟩ := (h 9).mp (by decide)
  have hlt := @calcLinearRank_lt ⟨0, .entire, [2, 2]⟩ cs hcs
  rw [← hr] at hlt
  revert hlt
  decide

end OmniCompiler.Xmp

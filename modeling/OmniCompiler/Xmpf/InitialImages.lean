import OmniCompiler.Arithmetic.FoldExcept

/-!
# Initial images of a subset (`xmpf_coarray_lib.c`)

Images are numbered from 1, MPI ranks from 0. The communicators are lists of processes, the rank
of a process being its position. SYNC IMAGES(*) in a subset needs the initial images of all
images of the subset but the calling one; the loop that collects them runs from 0.
-/
namespace OmniCompiler.Xmpf

open FoldExcept

/-- `MPI_Group_translate_ranks` for one rank, `none` being an error, and `MPI_UNDEFINED`. -/
structure RankTranslation where
  translate : List ℕ → List ℕ → ℤ → Option ℤ
  undefined : ℤ
  undefined_neg : undefined < 0
  /-- The rank of a process of the second group. -/
  member : ∀ group1 group2 p, ∀ r : ℕ, group1[r]? = some p → p ∈ group2 →
    translate group1 group2 r = some (group2.idxOf p : ℤ)
  /-- A process that is not in the second group. -/
  absent : ∀ group1 group2 p, ∀ r : ℕ, group1[r]? = some p → p ∉ group2 →
    translate group1 group2 r = some undefined
  /-- Of the numbers that are not ranks, only `MPI_PROC_NULL` is translated, to itself. -/
  outside : ∀ group1 group2 r x, r < 0 → translate group1 group2 r = some x → x < 0

variable (M : RankTranslation)

def transImageWithComm (comm1 : List ℕ) (image1 : ℤ) (comm2 : List ℕ) : Option ℤ :=
  (M.translate comm1 comm2 (image1 - 1)).map fun rank2 =>
    if rank2 = M.undefined then 0 else rank2 + 1

/-- `_get_initial_allimages`: the entries it stores in `images2[]`, one after the other. -/
def getInitialAllimages (comm world : List ℕ) (myImage size : ℕ) : Option (List ℤ) :=
  (List.range (size + 1)).foldlM (fun images2 i =>
    if i = myImage then some images2
    else (transImageWithComm M comm i world).map fun image => images2 ++ [image]) []

/-- Number of the process with rank `r` of `comm` among the initial images. -/
def initialImage (comm world : List ℕ) (r : ℕ) : ℤ := world.idxOf (comm.getD r 0) + 1

/-- The call of `xmpf_sync_allimages_nostat_` stores as many entries as its buffer has, the numbers
of the initial images of the other images of `comm`. -/
def ReceivesOthers (comm world : List ℕ) (myImage : ℕ) : Prop :=
  ∃ images2, getInitialAllimages M comm world myImage (comm.length - 1) = some images2 ∧
    images2.length = comm.length - 1 ∧
    images2.Perm (((List.range comm.length).filter (· + 1 ≠ myImage)).map (initialImage comm world))

variable {M} {comm world : List ℕ} {myImage : ℕ}

theorem transImageWithComm_image {r : ℕ} (hr : r < comm.length) (hsub : ∀ p ∈ comm, p ∈ world) :
    transImageWithComm M comm (r + 1) world = some (initialImage comm world r) := by
  have hp := List.getElem?_eq_getElem hr
  rw [transImageWithComm, add_sub_cancel_right, M.member _ _ _ _ hp (hsub _ (List.getElem_mem hr)),
    Option.map_some, if_neg, initialImage, List.getD_eq_getElem?_getD, hp]
  · rfl
  · have := M.undefined_neg
    omega

theorem transImageWithComm_zero {x : ℤ} (h : transImageWithComm M comm 0 world = some x) :
    x ≤ 0 := by
  obtain ⟨rank2, hrank, rfl⟩ := Option.map_eq_some_iff.mp h
  have := M.outside _ _ _ _ (by decide) hrank
  split_ifs
  · exact le_rfl
  · omega

/-- The first entry is the translation of image 0, the others are the initial images of the images
before the last one. -/
theorem getInitialAllimages_eq (hsub : ∀ p ∈ comm, p ∈ world) (hme : 1 ≤ myImage) {k : ℕ}
    (hk : k ≤ comm.length) : getInitialAllimages M comm world myImage k =
      (transImageWithComm M comm 0 world).map fun image => image ::
        ((List.range k).filter (· + 1 ≠ myImage)).map (initialImage comm world) := by
  induction k with
  | zero =>
    rw [getInitialAllimages, foldlM_range_succ, List.range_zero, List.foldlM_nil]
    change (if 0 = myImage then _ else _) = _
    rw [if_neg (by omega)]
    rfl
  | succ k ih =>
    rw [getInitialAllimages, foldlM_range_succ, ← getInitialAllimages, ih (by omega)]
    cases transImageWithComm M comm 0 world with
    | none => rfl
    | some image =>
      rw [Option.map_some, Option.bind_some, Option.map_some, List.range_succ, List.filter_append,
        List.map_append]
      by_cases hk1 : k + 1 = myImage
      · rw [if_pos hk1]
        simp [hk1]
      · have himage := transImageWithComm_image (M := M) (show k < comm.length by omega) hsub
        rw [if_neg hk1, Nat.cast_succ, himage]
        simp [hk1]

/-- No call receives the other images of its set: what it stores begins with an image that is
none. -/
theorem receivesOthers_never (M : RankTranslation) (hsub : ∀ p ∈ comm, p ∈ world)
    (hme : 1 ≤ myImage) : ¬ ReceivesOthers M comm world myImage := by
  intro ⟨images2, hrun, hlength, hperm⟩
  rw [getInitialAllimages_eq hsub hme (Nat.sub_le _ _)] at hrun
  obtain ⟨image, himage, rfl⟩ := Option.map_eq_some_iff.mp hrun
  have hzero := transImageWithComm_zero himage
  obtain ⟨r, -, hr⟩ := List.mem_map.mp (hperm.mem_iff.mp List.mem_cons_self)
  rw [initialImage] at hr
  omega

/-- Translation where `MPI_PROC_NULL` is -1 and `MPI_UNDEFINED` is -32766. -/
def translation : RankTranslation where
  translate group1 group2 r :=
    if r = -1 then some (-1)
    else if r < 0 then none
    else (group1[r.toNat]?).map fun p => if p ∈ group2 then (group2.idxOf p : ℤ) else -32766
  undefined := -32766
  undefined_neg := by decide
  member group1 group2 p r hp hmem := by
    rw [if_neg (by omega), if_neg (by omega), Int.toNat_natCast, hp, Option.map_some, if_pos hmem]
  absent group1 group2 p r hp hmem := by
    rw [if_neg (by omega), if_neg (by omega), Int.toNat_natCast, hp, Option.map_some, if_neg hmem]
  outside group1 group2 r x hr h := by
    split_ifs at h
    · obtain rfl := Option.some.inj h
      decide

/-- The first of two images of a set. -/
theorem receivesOthers_never_pair : ¬ ReceivesOthers translation [3, 5] [0, 1, 2, 3, 4, 5] 1 :=
  receivesOthers_never translation (by decide) (by decide)

/-- The last of two images of a set stores two entries in a buffer for one. -/
theorem receivesOthers_two_entries : ¬ ∀ (M : RankTranslation) (comm world : List ℕ) (myImage : ℕ),
    comm.Nodup → world.Nodup → (∀ p ∈ comm, p ∈ world) → 2 ≤ comm.length → 1 ≤ myImage →
      myImage ≤ comm.length → ReceivesOthers M comm world myImage := by
  intro hall
  obtain ⟨images2, hrun, hlength, -⟩ := hall translation [3, 5] [0, 1, 2, 3, 4, 5] 2 (by decide)
    (by decide) (by decide) (by decide) (by decide) (by decide)
  have htwo : (getInitialAllimages translation [3, 5] [0, 1, 2, 3, 4, 5] 2 1).map List.length =
      some 2 := by decide
  have hone := congrArg (Option.map List.length) hrun
  rw [Option.map_some, hlength] at hone
  exact absurd (htwo.symm.trans hone) (by decide)

end OmniCompiler.Xmpf

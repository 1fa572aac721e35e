import OmniCompiler.Xmp.SortMerge

/-!
# Distributed sort (`do_sort` in `xmp_sort.c`)

Every rank sorts its part, splits it at the pivots and sends the pieces to the ranks; a rank merges
the pieces that it receives. The pivots that the sampling yields are arbitrary here, but the same on
all ranks.
-/
namespace OmniCompiler.Xmp.Sort

/-- `make_histogram` from index `j` on: the start and the size of the piece for each rank. -/
def makeHistogram (isUp : Bool) (a : List ℤ) : ℕ → List ℤ → List (ℕ × ℕ)
  | j, [] => [(j, a.length - j)]
  | j, p :: pivot =>
    let size := (a.drop j).findIdx fun x => decide (0 < compareFunc isUp x p)
    (j, size) :: makeHistogram isUp a (j + size) pivot

def piece (a : List ℤ) (startSize : ℕ × ℕ) : List ℤ := (a.drop startSize.1).take startSize.2

def bufStart (bufSize : List ℕ) : ℕ → ℕ
  | 0 => 0
  | i + 1 => bufStart bufSize i + bufSize.getD i 0

/-- What `dist_keys` brings to rank `r`, and the starts of the runs; `parts` are the sorted parts of
the ranks. -/
def distKeys (isUp : Bool) (pivot : List ℤ) (parts : List (List ℤ)) (r : ℕ) :
    List ℤ × (ℕ → ℕ) :=
  let runs := parts.map fun a => piece a ((makeHistogram isUp a 0 pivot).getD r (0, 0))
  let bufSize := parts.map fun a => ((makeHistogram isUp a 0 pivot).getD r (0, 0)).2
  (runs.flatten, bufStart bufSize)

/-- `do_sort` up to the merged buffers of the ranks. -/
def doSort (t : ElemType) (isUp : Bool) (pivot : List ℤ) (as : List (List ℤ)) :
    Except SortError (List (List ℤ)) :=
  let parts := as.map (qsort isUp)
  (List.range as.length).mapM fun r =>
    let (buf, start) := distKeys isUp pivot parts r
    kwayMerge t isUp as.length buf start as.length

section Histogram

variable {isUp : Bool} {a : List ℤ}

def pieces (isUp : Bool) (a : List ℤ) (j : ℕ) (pivot : List ℤ) : List (List ℤ) :=
  (makeHistogram isUp a j pivot).map (piece a)

theorem length_pieces (j : ℕ) (pivot : List ℤ) :
    (pieces isUp a j pivot).length = pivot.length + 1 := by
  induction pivot generalizing j with
  | nil => rfl
  | cons p pivot ih =>
    have h := ih (j + (a.drop j).findIdx fun x => decide (0 < compareFunc isUp x p))
    rw [pieces, List.length_map] at h
    rw [pieces, List.length_map, makeHistogram, List.length_cons, List.length_cons, h]

theorem pieces_cons (j : ℕ) (p : ℤ) (pivot : List ℤ) : pieces isUp a j (p :: pivot) =
    (a.drop j).take ((a.drop j).findIdx fun x => decide (0 < compareFunc isUp x p)) ::
      pieces isUp a (j + (a.drop j).findIdx fun x => decide (0 < compareFunc isUp x p)) pivot :=
  rfl

theorem flatten_pieces (j : ℕ) (pivot : List ℤ) : (pieces isUp a j pivot).flatten = a.drop j := by
  induction pivot generalizing j with
  | nil =>
    show ((a.drop j).take (a.length - j)) ++ [] = a.drop j
    rw [List.append_nil, List.take_of_length_le (by rw [List.length_drop])]
  | cons p pivot ih =>
    rw [pieces_cons, List.flatten_cons, ih, ← List.drop_drop, List.take_append_drop]

theorem mem_flatten_of_getD {l : List (List ℤ)} {q : ℕ} {y : ℤ} (hy : y ∈ l.getD q []) :
    y ∈ l.flatten := by
  by_cases hq : q < l.length
  · rw [List.getD_eq_getElem l [] hq] at hy
    exact List.mem_flatten_of_mem (List.getElem_mem hq) hy
  · rw [List.getD_eq_default l [] (not_lt.mp hq)] at hy
    cases hy

theorem splitAt_findIdx (h : Sorted isUp a) (p : ℤ) :
    SplitAt isUp p a (a.findIdx fun x => decide (0 < compareFunc isUp x p)) := by
  obtain ⟨hle, hbefore, hafter⟩ := findIdx_spec a fun x => 0 < compareFunc isUp x p
  refine ⟨hle, ?_, ?_⟩
  · intro i hi
    exact not_lt.mp (hbefore i hi)
  · intro i hi hlt
    exact h.after_of_le hi hlt (compareFunc_pos.mp (hafter (hi.trans_lt hlt)))

/-- An element of a piece for a rank does not come after one of a piece for a later rank. -/
theorem pieces_before {b : List ℤ} (ha : Sorted isUp a) (hb : Sorted isUp b) (pivot : List ℤ)
    (j k : ℕ) {r q : ℕ} (hrq : r < q) {x y : ℤ} (hx : x ∈ (pieces isUp a j pivot).getD r [])
    (hy : y ∈ (pieces isUp b k pivot).getD q []) : Before isUp x y := by
  induction pivot generalizing j k r q with
  | nil =>
    have hq : (pieces isUp b k []).getD q [] = [] := by
      apply List.getD_eq_default
      rw [length_pieces, List.length_nil]
      omega
    rw [hq] at hy
    cases hy
  | cons p pivot ih =>
    rw [pieces_cons] at hx hy
    cases r with
    | zero =>
      obtain ⟨q, rfl⟩ := Nat.exists_eq_succ_of_ne_zero (Nat.ne_of_gt hrq)
      rw [List.getD_cons_zero] at hx
      rw [List.getD_cons_succ] at hy
      have hxp := (splitAt_findIdx (ha.drop j) p).take_before x hx
      have hmem : y ∈
        (b.drop k).drop ((b.drop k).findIdx fun x => decide (0 < compareFunc isUp x p)) := by
        rw [List.drop_drop, ← flatten_pieces _ pivot]
        exact mem_flatten_of_getD hy
      have hyp := (splitAt_findIdx (hb.drop k) p).drop_after y hmem
      exact hxp.trans ((before_total isUp y p).resolve_left hyp)
    | succ r =>
      obtain ⟨q, rfl⟩ := Nat.exists_eq_succ_of_ne_zero (Nat.ne_of_gt (Nat.zero_lt_of_lt hrq))
      rw [List.getD_cons_succ] at hx hy
      exact ih _ _ (Nat.lt_of_succ_lt_succ hrq) hx hy

theorem sorted_piece (ha : Sorted isUp a) (startSize : ℕ × ℕ) : Sorted isUp (piece a startSize) :=
  (ha.drop _).take _

end Histogram

section Distribute

variable {isUp : Bool} {pivot : List ℤ} {parts : List (List ℤ)}

/-- The runs that rank `r` receives. -/
def runsOf (isUp : Bool) (pivot : List ℤ) (parts : List (List ℤ)) (r : ℕ) : List (List ℤ) :=
  parts.map fun a => piece a ((makeHistogram isUp a 0 pivot).getD r (0, 0))

theorem getD_pieces (a : List ℤ) (r : ℕ) :
    piece a ((makeHistogram isUp a 0 pivot).getD r (0, 0)) = (pieces isUp a 0 pivot).getD r [] := by
  rw [pieces]
  by_cases hr : r < (makeHistogram isUp a 0 pivot).length
  · rw [List.getD_eq_getElem _ _ hr, List.getD_eq_getElem _ _ (by rwa [List.length_map]),
      List.getElem_map]
  · rw [List.getD_eq_default _ _ (not_lt.mp hr),
      List.getD_eq_default _ _ (by rw [List.length_map]; exact not_lt.mp hr)]
    exact List.take_zero

theorem length_piece {a : List ℤ} {j : ℕ} {e : ℕ × ℕ}
    (he : e ∈ makeHistogram isUp a j pivot) : (piece a e).length = e.2 := by
  induction pivot generalizing j with
  | nil =>
    obtain rfl := List.mem_singleton.mp he
    rw [piece, List.length_take, List.length_drop, min_self]
  | cons p pivot ih =>
    rw [makeHistogram] at he
    obtain rfl | he := List.mem_cons.mp he
    · rw [piece, List.length_take]
      exact min_eq_left List.findIdx_le_length
    · exact ih he

theorem length_runsOf (isUp : Bool) (pivot : List ℤ) (parts : List (List ℤ)) (r : ℕ) :
    (runsOf isUp pivot parts r).map List.length =
      parts.map fun a => ((makeHistogram isUp a 0 pivot).getD r (0, 0)).2 := by
  rw [runsOf, List.map_map]
  apply List.map_congr_left
  intro a _
  rw [Function.comp_apply]
  by_cases hr : r < (makeHistogram isUp a 0 pivot).length
  · rw [List.getD_eq_getElem _ _ hr]
    exact length_piece (List.getElem_mem hr)
  · rw [List.getD_eq_default _ _ (not_lt.mp hr)]
    rw [piece, List.take_zero, List.length_nil]

theorem bufStart_eq (runs : List (List ℤ)) {i : ℕ} (hi : i ≤ runs.length) :
    bufStart (runs.map List.length) i = (runs.take i).flatten.length := by
  induction i with
  | zero => rfl
  | succ i ih =>
    have hlt : i < runs.length := hi
    rw [bufStart, ih hlt.le, List.take_succ_eq_append_getElem hlt, List.flatten_append,
      List.length_append, List.getD_eq_getElem _ _ (by rwa [List.length_map]), List.getElem_map,
      List.flatten_singleton]

theorem startsOf_bufStart (runs : List (List ℤ)) :
    StartsOf runs (bufStart (runs.map List.length)) := by
  intro i hi
  rw [bufStart_eq runs hi, bufStart, Nat.zero_add]

theorem merges_rank (t : ElemType) (hpos : 0 < parts.length)
    (hparts : ∀ a ∈ parts, Sorted isUp a) (r : ℕ) :
    Merges isUp (runsOf isUp pivot parts r).flatten
      (kwayMerge t isUp parts.length (distKeys isUp pivot parts r).1 (distKeys isUp pivot parts r).2
        parts.length) := by
  have hlen : (runsOf isUp pivot parts r).length = parts.length := List.length_map _
  have hstart : (distKeys isUp pivot parts r).2 =
      bufStart ((runsOf isUp pivot parts r).map List.length) := by
    rw [length_runsOf]
    rfl
  have h :=
    kwayMerge_spec t parts.length (runsOf isUp pivot parts r) (distKeys isUp pivot parts r).2
    hlen.le (by omega) (by
      intro run hrun
      obtain ⟨a, ha, rfl⟩ := List.mem_map.mp hrun
      exact sorted_piece (hparts a ha) _) (by rw [hstart]; exact startsOf_bufStart _)
  rw [hlen] at h
  exact h

theorem perm_runs (isUp : Bool) (pivot : List ℤ) (parts : List (List ℤ)) :
    ((List.range (pivot.length + 1)).flatMap fun r => (runsOf isUp pivot parts r).flatten).Perm
      parts.flatten := by
  induction parts with
  | nil =>
    have hnil : ((List.range (pivot.length + 1)).flatMap fun r =>
        (runsOf isUp pivot [] r).flatten) = [] := by
      apply List.flatMap_eq_nil_iff.mpr
      intro r _
      rfl
    rw [hnil]
    rfl
  | cons a parts ih =>
    have hfirst : ((List.range (pivot.length + 1)).flatMap fun r =>
        (pieces isUp a 0 pivot).getD r []) = a := by
      have hall : (List.range (pivot.length + 1)).map (fun r => (pieces isUp a 0 pivot).getD r []) =
          pieces isUp a 0 pivot := by
        apply List.ext_getElem
        · rw [List.length_map, List.length_range, length_pieces]
        · intro i h₁ h₂
          rw [List.getElem_map, List.getElem_range, List.getD_eq_getElem _ _ h₂]
      rw [List.flatMap_def, hall, flatten_pieces, List.drop_zero]
    have hsplit := List.flatMap_append_perm (List.range (pivot.length + 1))
      (fun r => (pieces isUp a 0 pivot).getD r []) fun r => (runsOf isUp pivot parts r).flatten
    rw [hfirst] at hsplit
    have hcons : ∀ r, (runsOf isUp pivot (a :: parts) r).flatten =
        (pieces isUp a 0 pivot).getD r [] ++ (runsOf isUp pivot parts r).flatten := by
      intro r
      rw [runsOf, List.map_cons, List.flatten_cons, getD_pieces]
      rfl
    rw [List.flatMap_congr fun r _ => hcons r, List.flatten_cons]
    exact hsplit.symm.trans (ih.append_left a)

/-- An element that a rank has does not come after one of a later rank. -/
theorem runsOf_before (hparts : ∀ a ∈ parts, Sorted isUp a) {r q : ℕ} (hrq : r < q) {x y : ℤ}
    (hx : x ∈ (runsOf isUp pivot parts r).flatten)
    (hy : y ∈ (runsOf isUp pivot parts q).flatten) : Before isUp x y := by
  obtain ⟨run, hrun, hx⟩ := List.mem_flatten.mp hx
  obtain ⟨run', hrun', hy⟩ := List.mem_flatten.mp hy
  obtain ⟨a, ha, rfl⟩ := List.mem_map.mp hrun
  obtain ⟨b, hb, rfl⟩ := List.mem_map.mp hrun'
  rw [getD_pieces] at hx hy
  exact pieces_before (hparts a ha) (hparts b hb) pivot 0 0 hrq hx hy

end Distribute

section Ranks

variable {isUp : Bool}

theorem mapM_merges {runs : ℕ → List ℤ} {f : ℕ → Except SortError (List ℤ)}
    (hf : ∀ r, Merges isUp (runs r) (f r)) (ranks : List ℕ) :
    ranks.mapM f = .error .overflow ∨
      ∃ bufs, ranks.mapM f = .ok bufs ∧
        List.Forall₂ (fun r buf => Sorted isUp buf ∧ buf.Perm (runs r)) ranks bufs := by
  induction ranks with
  | nil => exact Or.inr ⟨[], rfl, List.Forall₂.nil⟩
  | cons r ranks ih =>
    rw [List.mapM_cons]
    obtain hr | ⟨buf, hr, hbuf⟩ := hf r
    · rw [hr]
      exact Or.inl rfl
    · obtain h | ⟨bufs, h, hbufs⟩ := ih
      · rw [hr, h]
        exact Or.inl rfl
      · rw [hr, h]
        exact Or.inr ⟨buf :: bufs, rfl, List.Forall₂.cons hbuf hbufs⟩

theorem perm_flatten {runs : ℕ → List ℤ} {ranks : List ℕ} {bufs : List (List ℤ)}
    (h : List.Forall₂ (fun r buf => Sorted isUp buf ∧ buf.Perm (runs r)) ranks bufs) :
    bufs.flatten.Perm (ranks.flatMap runs) := by
  induction h with
  | nil => exact List.Perm.refl _
  | cons hbuf _ ih =>
    rw [List.flatten_cons, List.flatMap_cons]
    exact hbuf.2.append ih

/-- The buffers in rank order are in order when the runs of the ranks are. -/
theorem sorted_flatten {runs : ℕ → List ℤ} {ranks : List ℕ} {bufs : List (List ℤ)}
    (h : List.Forall₂ (fun r buf => Sorted isUp buf ∧ buf.Perm (runs r)) ranks bufs)
    (hranks : ranks.Pairwise fun r q => ∀ x ∈ runs r, ∀ y ∈ runs q, Before isUp x y) :
    Sorted isUp bufs.flatten := by
  induction h with
  | nil => exact List.Pairwise.nil
  | @cons r buf ranks bufs hbuf hbufs ih =>
    rw [List.pairwise_cons] at hranks
    rw [Sorted, List.flatten_cons, List.pairwise_append]
    refine ⟨hbuf.1, ih hranks.2, ?_⟩
    intro x hx y hy
    obtain ⟨q, hq, hy⟩ := List.mem_flatMap.mp ((perm_flatten hbufs).mem_iff.mp hy)
    exact hranks.1 q hq x (hbuf.2.mem_iff.mp hx) y hy

end Ranks

section DoSort

variable {t : ElemType} {isUp : Bool} {pivot : List ℤ} {as : List (List ℤ)}

theorem perm_flatten_map_qsort (isUp : Bool) (as : List (List ℤ)) :
    (as.map (qsort isUp)).flatten.Perm as.flatten := by
  induction as with
  | nil => exact List.Perm.refl _
  | cons a as ih =>
    rw [List.map_cons, List.flatten_cons, List.flatten_cons]
    exact (perm_qsort isUp a).append ih

/-- Whatever the pivots are: if no average of the merge overflows, the buffers of the ranks, one
after the other, are the given elements in order. -/
theorem doSort_sorts (hpivot : pivot.length + 1 = as.length)
    (hoverflow : doSort t isUp pivot as ≠ .error .overflow) :
    ∃ bufs, doSort t isUp pivot as = .ok bufs ∧ bufs.length = as.length ∧
      Sorted isUp bufs.flatten ∧ bufs.flatten.Perm as.flatten ∧
      (bufs.map List.length).sum = (as.map List.length).sum := by
  have hlen : (as.map (qsort isUp)).length = as.length := List.length_map _
  have hparts : ∀ a ∈ as.map (qsort isUp), Sorted isUp a := by
    intro a ha
    obtain ⟨b, -, rfl⟩ := List.mem_map.mp ha
    exact sorted_qsort isUp b
  have hmerge : ∀ r, Merges isUp (runsOf isUp pivot (as.map (qsort isUp)) r).flatten
      (kwayMerge t isUp as.length (distKeys isUp pivot (as.map (qsort isUp)) r).1
        (distKeys isUp pivot (as.map (qsort isUp)) r).2 as.length) := by
    intro r
    have h := @merges_rank isUp pivot _ t (by omega) hparts r
    rwa [hlen] at h
  obtain h | ⟨bufs, h, hbufs⟩ := mapM_merges hmerge (List.range as.length)
  · exact absurd h hoverflow
  · have hperm : bufs.flatten.Perm as.flatten := by
      refine ((perm_flatten hbufs).trans ?_).trans (perm_flatten_map_qsort isUp as)
      rw [← hpivot]
      exact perm_runs isUp pivot _
    refine ⟨bufs, h, ?_, ?_, hperm, ?_⟩
    · rw [← hbufs.length_eq, List.length_range]
    · apply sorted_flatten hbufs
      exact List.pairwise_lt_range.imp fun hrq x hx y hy => runsOf_before hparts hrq hx hy
    · rw [← List.length_flatten, ← List.length_flatten, hperm.length_eq]

theorem doSort_sorts_three :
    doSort .unsignedInt false [4, 4] [[1, 9, 4], [], [7, 2]] ≠ .error .overflow ∧
      ∃ bufs, doSort .unsignedInt false [4, 4] [[1, 9, 4], [], [7, 2]] = .ok bufs ∧
        bufs.length = [[1, 9, 4], [], [7, (2 : ℤ)]].length ∧ Sorted false bufs.flatten ∧
        bufs.flatten.Perm [[1, 9, 4], [], [7, (2 : ℤ)]].flatten ∧
        (bufs.map List.length).sum = ([[1, 9, 4], [], [7, (2 : ℤ)]].map List.length).sum :=
  have hrun : doSort .unsignedInt false [4, 4] [[1, 9, 4], [], [7, 2]] =
    .ok [[9, 7, 4], [], [2, 1]] := by rfl
  have hok : doSort .unsignedInt false [4, 4] [[1, 9, 4], [], [7, 2]] ≠ .error .overflow := by
    rw [hrun]
    nofun
  ⟨hok, doSort_sorts rfl hok⟩

end DoSort

end OmniCompiler.Xmp.Sort

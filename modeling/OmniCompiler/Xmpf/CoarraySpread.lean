import OmniCompiler.Arithmetic.FoldExcept
import OmniCompiler.Xmpf.CoarrayPut

/-!
# Put of a scalar to a coindexed section (`xmpf_coarray_put.c`)

The scalar is laid out in the local buffer as often as it fits and put from there. The
address of the scalar is advanced as if it were an array, and the walk over the axes that are
not contiguous has no end of its own: it goes on through the axes that were collapsed before
and beyond the start of `count[]`, unless there is an axis without elements.
-/
namespace OmniCompiler.Xmpf

open Memory MachineInt FoldExcept

variable {β : Type}

/-- The local buffer, the addresses that were read from, and the chunk on the other image. -/
structure Spread (β : Type) where
  buf : ℤ → β
  reads : List ℤ
  remote : ℤ → β

/-- `bufSize`, of type `size_t`. -/
def PutEnv.spreadSize (E : PutEnv) : ℕ := (toULL E.bufSize).toNat

section Code

variable (E : PutEnv) (orgAddr : ℤ) (loc : ℤ → β) (element : ℕ)

/-- One `memcpy` of the scalar to the place `i` of the local buffer. -/
def copyScalar (src : ℤ) (t : Spread β) (i : ℕ) : Spread β :=
  { t with buf := transfer element loc t.buf (i * element) src, reads := src :: t.reads }

/-- The loops that fill `len` bytes of the local buffer. -/
def fillLocalBuf (len : ℕ) (src : ℤ) (t : Spread β) : Option (Spread β) :=
  if element = 0 ∧ 0 < len then none
  else some ((List.range ((len + element - 1) / element)).foldl (copyScalar loc element src) t)

/-- The put of `len` bytes of the local buffer. -/
def putLocalBuf (dst : ℤ) (len : ℕ) (t : Spread β) : Spread β :=
  { t with remote := putVectorDMA orgAddr dst len t.buf 0 t.remote }

/-- The loop of `_spreadVector_buffer` and the put after it. A loop that advances ends within
`rest` rounds. -/
def spreadChunks : ℕ → ℕ → ℤ → ℤ → Spread β → Option (Spread β)
  | 0, rest, src, dst, t =>
    if E.spreadSize < rest then none
    else (fillLocalBuf loc element rest src t).map (putLocalBuf orgAddr dst rest)
  | rounds + 1, rest, src, dst, t =>
    if E.spreadSize < rest then
      (fillLocalBuf loc element E.spreadSize src t).bind fun t =>
        spreadChunks rounds (rest - E.spreadSize) (src + E.spreadSize) (dst + E.spreadSize)
          (putLocalBuf orgAddr dst E.spreadSize t)
    else (fillLocalBuf loc element rest src t).map (putLocalBuf orgAddr dst rest)

def spreadVectorBuffer (baseAddr : ℤ) (bytes : ℕ) (rhs : ℤ) (t : Spread β) : Option (Spread β) :=
  spreadChunks E orgAddr loc element bytes bytes rhs baseAddr t

/-- One round of the loop of `_spreadVectorIter` for the first axis. -/
def spreadRound (baseAddr : ℤ) (bytes : ℕ) (a : Axis) (t : ℤ × Spread β) (i : ℕ) :
    Option (ℤ × Spread β) :=
  (spreadVectorBuffer E orgAddr loc element (baseAddr + i * a.dst) bytes t.1 t.2).map fun u =>
    (t.1 + bytes, u)

/-- `_spreadVectorIter`. The list begins with the entry `rank - 1` of `count[]` and `skip[]` and
goes down from there to the first entry of the arrays that the caller of `_spreadCoarray` passed. -/
def spreadVectorIter (bytes : ℕ) : ℤ → List Axis → ℤ → ℤ × Spread β → Option (ℤ × Spread β)
  | _, [], _, _ => none
  | rank, a :: inner, baseAddr, t =>
    (if rank = 1
      then (List.range a.count).foldlM (spreadRound E orgAddr loc element baseAddr bytes a) t
      else some t).bind fun t =>
        -- the first axis has no `return` here
        (List.range a.count).foldlM (fun t (i : ℕ) => (cint (i * a.dst)).bind fun gap =>
          spreadVectorIter bytes (rank - 1) inner (baseAddr + gap) t) t

/-- `_spreadCoarray`; `before` are the axes that have been collapsed, the last one first. -/
def spreadCoarray (baseAddr rhs : ℤ) : List Axis → ℕ → List Axis → Spread β → Option (Spread β)
  | _, bytes, [], t => spreadVectorBuffer E orgAddr loc element baseAddr bytes rhs t
  | before, bytes, a :: axes, t =>
    if (bytes : ℤ) = a.dst then
      (cnat (bytes * a.count)).bind fun bytes =>
        spreadCoarray baseAddr rhs (a :: before) bytes axes t
    else (spreadVectorIter E orgAddr loc element bytes (axes.length + 1)
      ((a :: axes).reverse ++ before) baseAddr (rhs, t)).map Prod.snd

def putSpread (axes : List Axis) (baseAddr rhs : ℤ) (buf remote : ℤ → β) : Option (Spread β) :=
  if element % E.commUnit ≠ 0 then none
  else spreadCoarray E orgAddr loc element baseAddr rhs [] element axes
    { buf := buf, reads := [], remote := remote }

end Code

def Axis.still (a : Axis) : Axis := { a with src := 0 }

def Axis.both (a : Axis) : Axis := { a with src := a.dst }

/-- The put ends, assigns the scalar to every element of the section and nothing else, and reads no
byte outside of the scalar. -/
def SpreadsScalar (E : PutEnv) (orgAddr : ℤ) (loc : ℤ → β) (element : ℕ) (axes : List Axis)
    (baseAddr rhs : ℤ) (buf remote : ℤ → β) : Prop :=
  ∃ t, putSpread E orgAddr loc element axes baseAddr rhs buf remote = some t ∧
    SectionAssigned element (axes.map Axis.still) (baseAddr - orgAddr) rhs loc remote t.remote ∧
    ∀ p ∈ t.reads, ∀ r : ℕ, r < element → rhs ≤ p + r ∧ p + r < rhs + element

/-- The products of the walk fit in `int`, as far as it goes. -/
def WalkFits (loops : List Axis) : Prop :=
  ∀ a ∈ loops.takeWhile (fun a => a.count ≠ 0), InInt ((a.count - 1 : ℤ) * a.dst)

/-- A contiguous section that the local buffer has room for, or a section without elements. -/
def Spreadable (E : PutEnv) (element : ℕ) (axes : List Axis) : Prop :=
  element % E.commUnit = 0 ∧
    ((∃ b, collapse element (axes.map Axis.both) = some (b, []) ∧ b ≤ E.spreadSize) ∨
      (elements axes = 0 ∧ (∃ b rest, collapse element (axes.map Axis.both) = some (b, rest) ∧
        rest ≠ []) ∧ WalkFits axes.reverse))

variable {E : PutEnv} {orgAddr : ℤ} {loc : ℤ → β} {element : ℕ}

/-! ## Putting one vector -/

theorem fillLocalBuf_zero (src : ℤ) (t : Spread β) : fillLocalBuf loc element 0 src t = some t := by
  have hrounds : (0 + element - 1) / element = 0 := by
    cases element with
    | zero => rfl
    | succ n => exact Nat.div_eq_of_lt (by omega)
  rw [fillLocalBuf, if_neg (by omega), hrounds]
  rfl

theorem spreadVectorBuffer_zero (baseAddr rhs : ℤ) (t : Spread β) :
    spreadVectorBuffer E orgAddr loc element baseAddr 0 rhs t = some t := by
  rw [spreadVectorBuffer, spreadChunks, if_neg (by omega), fillLocalBuf_zero, Option.map_some,
    putLocalBuf, putVectorDMA, transfer_zero]

/-- `u` is `t` after `k` copies of the scalar at `src`, side by side. -/
structure Filled (loc : ℤ → β) (element : ℕ) (src : ℤ) (k : ℕ) (t u : Spread β) : Prop where
  remote : u.remote = t.remote
  reads : ∀ p ∈ u.reads, p = src ∨ p ∈ t.reads
  kept : ∀ p ∈ t.reads, p ∈ u.reads
  read : 0 < k → src ∈ u.reads
  buf : ∀ x : ℕ, x < k * element → u.buf x = loc (src + (x % element : ℕ))

theorem Filled.copyScalar {src : ℤ} {k : ℕ} {t u : Spread β} (h : Filled loc element src k t u) :
    Filled loc element src (k + 1) t (copyScalar loc element src u k) where
  remote := h.remote
  reads p hp := by
    obtain rfl | hp := List.mem_cons.mp hp
    · exact Or.inl rfl
    · exact h.reads p hp
  kept p hp := List.mem_cons_of_mem _ (h.kept p hp)
  read _ := List.mem_cons_self
  buf x hx := by
    dsimp only [Xmpf.copyScalar]
    by_cases hlast : k * element ≤ x
    · obtain ⟨r, rfl⟩ := Nat.exists_eq_add_of_le hlast
      have hr : r < element := by
        rw [Nat.succ_mul] at hx
        omega
      have hmod : (k * element + r) % element = r := by
        rw [Nat.mul_add_mod_self_right, Nat.mod_eq_of_lt hr]
      rw [hmod]
      push_cast
      exact transfer_inside hr _ _ _ _
    · have hlt : (x : ℤ) < k * element := by exact_mod_cast Nat.lt_of_not_le hlast
      rw [transfer_outside (by omega)]
      exact h.buf x (Nat.lt_of_not_le hlast)

theorem filled_foldl (src : ℤ) (k : ℕ) (t : Spread β) :
    Filled loc element src k t ((List.range k).foldl (copyScalar loc element src) t) := by
  induction k with
  | zero => exact ⟨rfl, fun p hp => Or.inr hp, fun p hp => hp, fun h => absurd h (lt_irrefl 0),
      fun x hx => absurd hx (by omega)⟩
  | succ k ih =>
    rw [List.range_succ, List.foldl_append]
    exact ih.copyScalar

theorem filled_of_fillLocalBuf {len : ℕ} {src : ℤ} {t u : Spread β}
    (h : fillLocalBuf loc element len src t = some u) :
    ∃ k, len ≤ k * element ∧ Filled loc element src k t u := by
  unfold fillLocalBuf at h
  split_ifs at h with hzero
  rw [← Option.some.inj h]
  refine ⟨_, ?_, filled_foldl src _ t⟩
  by_cases helement : element = 0
  · have hlen : len = 0 := by
      by_contra hlen
      exact hzero ⟨helement, Nat.pos_of_ne_zero hlen⟩
    rw [hlen]
    exact Nat.zero_le _
  · have hdm := Nat.div_add_mod (len + element - 1) element
    have hlt := Nat.mod_lt (len + element - 1) (Nat.pos_of_ne_zero helement)
    rw [mul_comm] at hdm
    omega

theorem Filled.read_of_pos {src : ℤ} {k len : ℕ} {t u : Spread β} (h : Filled loc element src k t u)
    (hlen : len ≤ k * element) (hpos : 0 < len) : src ∈ u.reads :=
  h.read (Nat.pos_of_mul_pos_right (hpos.trans_le hlen))

theorem spreadChunks_single {rounds rest : ℕ} {src dst : ℤ} {t : Spread β}
    (h : rest ≤ E.spreadSize) : spreadChunks E orgAddr loc element rounds rest src dst t =
      (fillLocalBuf loc element rest src t).map (putLocalBuf orgAddr dst rest) := by
  cases rounds with
  | zero => rw [spreadChunks, if_neg (Nat.not_lt.mpr h)]
  | succ rounds => rw [spreadChunks, if_neg (Nat.not_lt.mpr h)]

theorem spreadVectorBuffer_fits {bytes : ℕ} (hfits : bytes ≤ E.spreadSize)
    (hzero : element = 0 → bytes = 0) (baseAddr rhs : ℤ) (t : Spread β) :
    ∃ u, spreadVectorBuffer E orgAddr loc element baseAddr bytes rhs t = some u ∧
      (∀ p ∈ u.reads, p = rhs ∨ p ∈ t.reads) ∧
      u.remote =
        transfer bytes (fun x => loc (rhs + x % element)) t.remote (baseAddr - orgAddr) 0 := by
  rw [spreadVectorBuffer, spreadChunks_single hfits]
  have hfill : fillLocalBuf loc element bytes rhs t =
      some ((List.range ((bytes + element - 1) / element)).foldl
        (copyScalar loc element rhs) t) := by
    apply if_neg
    intro ⟨helement, hpos⟩
    exact hpos.ne' (hzero helement)
  obtain ⟨k, hk, hfilled⟩ := filled_of_fillLocalBuf hfill
  rw [hfill, Option.map_some]
  refine ⟨_, rfl, hfilled.reads, ?_⟩
  funext x
  simp only [putLocalBuf, putVectorDMA, hfilled.remote, transfer]
  by_cases hin : baseAddr - orgAddr ≤ x ∧ x < baseAddr - orgAddr + bytes
  · obtain ⟨r, hr⟩ := Int.eq_ofNat_of_zero_le (sub_nonneg.mpr hin.1)
    rw [if_pos hin, if_pos hin, hr, zero_add, hfilled.buf r (by omega)]
    push_cast
    rfl
  · rw [if_neg hin, if_neg hin]

theorem mem_reads_of_spreadChunks {rounds rest : ℕ} {src dst p : ℤ} {t u : Spread β}
    (h : spreadChunks E orgAddr loc element rounds rest src dst t = some u) (hp : p ∈ t.reads) :
    p ∈ u.reads := by
  induction rounds generalizing rest src dst t with
  | zero =>
    unfold spreadChunks at h
    split_ifs at h
    obtain ⟨v, hv, rfl⟩ := Option.map_eq_some_iff.mp h
    obtain ⟨k, -, hfilled⟩ := filled_of_fillLocalBuf hv
    exact hfilled.kept p hp
  | succ rounds ih =>
    unfold spreadChunks at h
    split_ifs at h
    · obtain ⟨v, hv, hrest⟩ := Option.bind_eq_some_iff.mp h
      obtain ⟨k, -, hfilled⟩ := filled_of_fillLocalBuf hv
      exact ih hrest (hfilled.kept p hp)
    · obtain ⟨v, hv, rfl⟩ := Option.map_eq_some_iff.mp h
      obtain ⟨k, -, hfilled⟩ := filled_of_fillLocalBuf hv
      exact hfilled.kept p hp

theorem src_mem_reads {rounds rest : ℕ} {src dst : ℤ} {t u : Spread β}
    (h : spreadChunks E orgAddr loc element rounds rest src dst t = some u) (hrest : 0 < rest)
    (hsize : 0 < E.spreadSize) : src ∈ u.reads := by
  by_cases hlong : E.spreadSize < rest
  · cases rounds with
    | zero =>
      rw [spreadChunks, if_pos hlong] at h
      cases h
    | succ rounds =>
      rw [spreadChunks, if_pos hlong] at h
      obtain ⟨v, hv, hlater⟩ := Option.bind_eq_some_iff.mp h
      obtain ⟨k, hk, hfilled⟩ := filled_of_fillLocalBuf hv
      exact mem_reads_of_spreadChunks hlater (hfilled.read_of_pos hk hsize)
  · rw [spreadChunks_single (Nat.le_of_not_lt hlong)] at h
    obtain ⟨v, hv, rfl⟩ := Option.map_eq_some_iff.mp h
    obtain ⟨k, hk, hfilled⟩ := filled_of_fillLocalBuf hv
    exact hfilled.read_of_pos hk hrest

theorem spreadChunks_stuck {rounds rest : ℕ} {src dst : ℤ} {t : Spread β} (hrest : 0 < rest)
    (hsize : E.spreadSize = 0) :
    spreadChunks E orgAddr loc element rounds rest src dst t = none := by
  induction rounds generalizing src dst t with
  | zero => rw [spreadChunks, if_pos (by omega)]
  | succ rounds ih =>
    rw [spreadChunks, if_pos (by omega), hsize, fillLocalBuf_zero]
    exact ih

theorem spreadVectorBuffer_beyond {bytes : ℕ} {baseAddr rhs : ℤ} {t u : Spread β}
    (hlong : E.spreadSize < bytes)
    (h : spreadVectorBuffer E orgAddr loc element baseAddr bytes rhs t = some u) :
    ∃ p ∈ u.reads, rhs < p := by
  by_cases hsize : E.spreadSize = 0
  · rw [spreadVectorBuffer, spreadChunks_stuck (by omega) hsize] at h
    cases h
  · cases bytes with
    | zero => omega
    | succ rounds =>
      rw [spreadVectorBuffer, spreadChunks, if_pos hlong] at h
      obtain ⟨v, -, hlater⟩ := Option.bind_eq_some_iff.mp h
      exact ⟨_, src_mem_reads hlater (by omega) (by omega), by omega⟩

/-! ## The walk over the axes that are not contiguous -/

theorem spreadVectorIter_full {loops : List Axis} (h : elements loops ≠ 0) (bytes : ℕ) (rank : ℤ)
    (baseAddr : ℤ) (t : ℤ × Spread β) :
    spreadVectorIter E orgAddr loc element bytes rank loops baseAddr t = none := by
  induction loops generalizing rank baseAddr t with
  | nil => rfl
  | cons a inner ih =>
    rw [elements_cons] at h
    rw [spreadVectorIter, Option.bind_eq_none_iff]
    intro u _
    apply foldlM_range_none (Nat.pos_of_ne_zero (left_ne_zero_of_mul h))
    intro v
    rw [cint_zero_mul, Option.bind_some]
    exact ih (right_ne_zero_of_mul h) _ _ _

theorem walkFits_cons {a : Axis} {inner : List Axis} (ha : a.count ≠ 0) :
    WalkFits (a :: inner) ↔ InInt ((a.count - 1 : ℤ) * a.dst) ∧ WalkFits inner := by
  rw [WalkFits, List.takeWhile_cons_of_pos (by simpa using ha), List.forall_mem_cons]
  rfl

theorem spreadVectorIter_unfit {loops : List Axis} (h : ¬ WalkFits loops) (bytes : ℕ) (rank : ℤ)
    (baseAddr : ℤ) (t : ℤ × Spread β) :
    spreadVectorIter E orgAddr loc element bytes rank loops baseAddr t = none := by
  induction loops generalizing rank baseAddr t with
  | nil => rfl
  | cons a inner ih =>
    have ha : a.count ≠ 0 := by
      intro ha
      apply h
      rw [WalkFits, List.takeWhile_cons_of_neg (by simpa using ha)]
      intro b hb
      cases hb
    rw [walkFits_cons ha, not_and_or] at h
    rw [spreadVectorIter, Option.bind_eq_none_iff]
    intro u _
    obtain hlast | hinner := h
    · -- the last product does not fit
      apply foldlM_range_none (Nat.sub_lt (Nat.pos_of_ne_zero ha) one_pos)
      intro v
      have hcast : ((a.count - 1 : ℕ) : ℤ) = a.count - 1 := by omega
      rw [hcast, cint, if_neg hlast]
      rfl
    · apply foldlM_range_none (Nat.pos_of_ne_zero ha)
      intro v
      rw [cint_zero_mul, Option.bind_some]
      exact ih hinner _ _ _

/-- Where an axis has no elements, the walk changes nothing: empty vectors are all that it puts. -/
theorem spreadVectorIter_empty {loops : List Axis} {bytes : ℕ} {rank : ℤ} (h : elements loops = 0)
    (hfits : WalkFits loops) (hbytes : bytes = 0 ∨ elements (loops.take rank.toNat) = 0)
    (baseAddr : ℤ) (t : ℤ × Spread β) :
    spreadVectorIter E orgAddr loc element bytes rank loops baseAddr t = some t := by
  induction loops generalizing rank baseAddr with
  | nil => cases h
  | cons a inner ih =>
    rw [spreadVectorIter]
    by_cases ha : a.count = 0
    · rw [ha]
      split_ifs
      · rfl
      · rfl
    · obtain ⟨hlast, hinner⟩ := (walkFits_cons ha).mp hfits
      rw [elements_cons] at h
      have hempty := (Nat.mul_eq_zero.mp h).resolve_left ha
      have hfirst : (if rank = 1 then
          (List.range a.count).foldlM (spreadRound E orgAddr loc element baseAddr bytes a) t
          else some t) = some t := by
        split_ifs with hrank
        · have hzero : bytes = 0 := by
            apply hbytes.resolve_right
            rw [hrank, Int.toNat_one, List.take_succ_cons, List.take_zero, elements_cons,
              elements_nil, mul_one]
            exact ha
          apply foldlM_range_self
          intro i _
          rw [spreadRound, hzero, spreadVectorBuffer_zero, Option.map_some, Nat.cast_zero, add_zero]
        · rfl
      rw [hfirst, Option.bind_some]
      apply foldlM_range_self
      intro i hi
      rw [cint_eq_some.mpr ⟨inInt_mul hi hlast, rfl⟩, Option.bind_some]
      apply ih hempty hinner
      apply hbytes.imp_right
      intro htake
      obtain hrank | ⟨k, hk⟩ : rank.toNat = 0 ∨ ∃ k, rank.toNat = k + 1 :=
        (Nat.eq_zero_or_eq_succ_pred _).imp_right fun hk => ⟨_, hk⟩
      · rw [hrank] at htake
        cases htake
      · have hk' : (rank - 1).toNat = k := by omega
        rw [hk, List.take_succ_cons, elements_cons] at htake
        rw [hk']
        exact (Nat.mul_eq_zero.mp htake).resolve_left ha

/-! ## Collapsing -/

theorem elements_map_both (axes : List Axis) : elements (axes.map Axis.both) = elements axes := by
  rw [elements, elements, List.map_map]
  rfl

theorem suffix_of_collapse {bytes b : ℕ} {axes rest : List Axis}
    (h : collapse bytes axes = some (b, rest)) : rest <:+ axes := by
  induction axes generalizing bytes with
  | nil =>
    cases h
    exact List.suffix_rfl
  | cons a axes ih =>
    rw [collapse] at h
    split_ifs at h
    · obtain ⟨x, -, hrest⟩ := Option.bind_eq_some_iff.mp h
      exact (ih hrest).trans (List.suffix_cons a axes)
    · cases h
      exact List.suffix_rfl

theorem elements_take {axes rest : List Axis} (h : rest <:+ axes.map Axis.both) :
    elements (axes.reverse.take rest.length) = elements rest := by
  obtain ⟨pre, hpre⟩ := h
  rw [← elements_map_both, List.map_take, List.map_reverse, ← hpre, List.reverse_append,
    ← List.length_reverse, List.take_left, elements_reverse]

theorem spreadCoarray_eq (baseAddr rhs : ℤ) (before : List Axis) (bytes : ℕ) (axes : List Axis)
    (t : Spread β) : spreadCoarray E orgAddr loc element baseAddr rhs before bytes axes t =
      (collapse bytes (axes.map Axis.both)).bind fun r =>
        if r.2 = [] then spreadVectorBuffer E orgAddr loc element baseAddr r.1 rhs t
        else (spreadVectorIter E orgAddr loc element r.1 r.2.length
          (axes.reverse ++ before) baseAddr
          (rhs, t)).map Prod.snd := by
  induction axes generalizing before bytes with
  | nil => rfl
  | cons a axes ih =>
    rw [spreadCoarray, List.map_cons, collapse]
    by_cases hbytes : (bytes : ℤ) = a.dst
    · rw [if_pos hbytes, if_pos ⟨hbytes, hbytes⟩, Option.bind_assoc]
      congr 1
      funext b
      rw [ih, List.reverse_cons, List.append_assoc, List.singleton_append]
    · rw [if_neg hbytes, if_neg fun h => hbytes h.1, Option.bind_some,
        if_neg (List.cons_ne_nil _ _),
        List.length_cons, List.length_map]
      rfl

/-! ## The section -/

theorem isIndex_map (f : Axis → Axis) (hf : ∀ a, (f a).count = a.count) {axes : List Axis}
    {v : List ℕ} : IsIndex (axes.map f) v ↔ IsIndex axes v := by
  rw [IsIndex, IsIndex, List.forall₂_map_right_iff]
  simp only [hf]

theorem place_map (g : Axis → ℤ) (f : Axis → Axis) (axes : List Axis) (v : List ℕ) :
    place g (axes.map f) v = place (fun a => g (f a)) axes v := by
  rw [place, place, List.zipWith_map_right]

theorem place_still (axes : List Axis) (v : List ℕ) :
    place Axis.src (axes.map Axis.still) v = 0 := by
  induction axes generalizing v with
  | nil => simp [place]
  | cons a axes ih =>
    cases v with
    | nil => simp [place]
    | cons i v =>
      rw [List.map_cons, place_cons, ih, add_zero]
      exact mul_zero _

theorem dvd_place {m : ℤ} {axes : List Axis} (h : ∀ a ∈ axes, m ∣ a.dst) (v : List ℕ) :
    m ∣ place Axis.dst axes v := by
  induction axes generalizing v with
  | nil => simp [place]
  | cons a axes ih =>
    rw [List.forall_mem_cons] at h
    cases v with
    | nil => simp [place]
    | cons i v =>
      rw [place_cons]
      exact dvd_add (Dvd.dvd.mul_left h.1 _) (ih h.2 v)

theorem dvd_of_collapse {m bytes b : ℕ} {axes : List Axis} (hm : m ∣ bytes)
    (h : collapse bytes axes = some (b, [])) : ∀ a ∈ axes, (m : ℤ) ∣ a.dst := by
  induction axes generalizing bytes with
  | nil =>
    intro a ha
    cases ha
  | cons a axes ih =>
    rw [collapse] at h
    split_ifs at h with hab
    · obtain ⟨x, hx, hrest⟩ := Option.bind_eq_some_iff.mp h
      obtain ⟨-, rfl⟩ := cnat_eq_some.mp hx
      rw [List.forall_mem_cons]
      exact ⟨hab.1 ▸ Int.natCast_dvd_natCast.mpr hm, ih (Dvd.dvd.mul_right hm _) hrest⟩
    · cases h

/-- Copies of the scalar side by side assign it to every element of a contiguous section. -/
theorem sectionAssigned_repeat {axes : List Axis} {b : ℕ}
    (h : collapse element (axes.map Axis.both) = some (b, [])) (d rhs : ℤ) (remote : ℤ → β) :
    SectionAssigned element (axes.map Axis.still) d rhs loc remote
      (transfer b (fun x => loc (rhs + x % element)) remote d 0) := by
  have hwhole := transfers_collapse h (fun x => loc (rhs + x % element)) remote d 0
  have hsource : ∀ p ∈ visited (axes.map Axis.both).reverse d 0, ∀ r : ℕ, r < element →
      loc (rhs + (p.2 + r) % element) = loc (rhs + (p.1 + r - d) % element) := by
    intro p hp r _
    obtain ⟨v, -, rfl⟩ := mem_visited_reverse.mp hp
    have hplace : place Axis.src (axes.map Axis.both) v =
      place Axis.dst (axes.map Axis.both) v := by
      rw [place_map, place_map]
      rfl
    dsimp only
    rw [hplace]
    congr 3
    ring
  have hassign := @isAssignment_transfers_of_agree _ element _
    (fun x => loc (rhs + x % element)) (fun x => loc (rhs + (x - d) % element)) hsource remote
  rw [hwhole, ← sectionAssigned_iff] at hassign
  have hmultiple := dvd_of_collapse (dvd_refl element) h
  constructor
  · intro v hv r hr
    rw [isIndex_map Axis.still fun _ => rfl] at hv
    have hmoved := hassign.moved v ((isIndex_map Axis.both fun _ => rfl).mpr hv) r hr
    have hdst : place Axis.dst (axes.map Axis.still) v = place Axis.dst (axes.map Axis.both) v := by
      rw [place_map, place_map]
      rfl
    have hsrc : place Axis.src (axes.map Axis.both) v = place Axis.dst (axes.map Axis.both) v := by
      rw [place_map, place_map]
      rfl
    have hmod : (0 + place Axis.dst (axes.map Axis.both) v + r) % element = r := by
      obtain ⟨q, hq⟩ := dvd_place hmultiple v
      rw [hq, zero_add, Int.add_comm, Int.add_mul_emod_self_left]
      exact Int.emod_eq_of_lt (by omega) (by omega)
    rw [hsrc, hmod] at hmoved
    rw [hdst, place_still, add_zero]
    exact hmoved
  · intro a ha
    apply hassign.kept
    intro v hv r hr
    rw [isIndex_map Axis.both fun _ => rfl] at hv
    have hout := ha v ((isIndex_map Axis.still fun _ => rfl).mpr hv) r hr
    rw [place_map] at hout ⊢
    exact hout

theorem sectionAssigned_none {axes : List Axis} (h : elements axes = 0) (d rhs : ℤ)
    (remote : ℤ → β) : SectionAssigned element (axes.map Axis.still) d rhs loc remote remote := by
  have hnone : visited (axes.map Axis.still).reverse d rhs = [] := by
    rw [visited_eq_nil, elements_reverse, elements, List.map_map]
    exact h
  rw [sectionAssigned_iff, hnone]
  exact ⟨fun p hp => absurd hp List.not_mem_nil, fun _ _ => rfl⟩

/-- A scalar is put right to contiguous sections that the local buffer has room for and to sections
without elements, as far as the products fit in `int`. -/
theorem putSpread_iff (E : PutEnv) (orgAddr : ℤ) (loc : ℤ → β) (element : ℕ) (axes : List Axis)
    (baseAddr rhs : ℤ) (buf remote : ℤ → β) :
    SpreadsScalar E orgAddr loc element axes baseAddr rhs buf remote ↔
      Spreadable E element axes := by
  unfold SpreadsScalar putSpread
  constructor
  · intro ⟨t, ht, _, hreads⟩
    split_ifs at ht with hunit
    refine ⟨not_not.mp hunit, ?_⟩
    rw [spreadCoarray_eq, List.append_nil] at ht
    obtain ⟨⟨b, rest⟩, hcollapse, ht⟩ := Option.bind_eq_some_iff.mp ht
    dsimp only at ht
    split_ifs at ht with hrest
    · rw [hrest] at hcollapse
      left
      refine ⟨b, hcollapse, ?_⟩
      by_contra hlong
      have hb := elements_collapse hcollapse
      rw [elements_nil, mul_one] at hb
      have helement : 0 < element := by
        apply Nat.pos_of_mul_pos_right (b := elements (axes.map Axis.both))
        omega
      obtain ⟨p, hp, hbeyond⟩ := spreadVectorBuffer_beyond (Nat.lt_of_not_le hlong) ht
      have hin := hreads p hp (element - 1) (by omega)
      omega
    · obtain ⟨s, hs, -⟩ := Option.map_eq_some_iff.mp ht
      right
      refine ⟨?_, ⟨b, rest, hcollapse, hrest⟩, ?_⟩
      · by_contra hfull
        rw [spreadVectorIter_full (by rwa [elements_reverse])] at hs
        cases hs
      · by_contra hfits
        rw [spreadVectorIter_unfit hfits] at hs
        cases hs
  · intro ⟨hunit, hcond⟩
    rw [if_neg (not_not.mpr hunit), spreadCoarray_eq, List.append_nil]
    obtain ⟨b, hcollapse, hb⟩ | ⟨hempty, ⟨b, rest, hcollapse, hrest⟩, hfits⟩ := hcond
    · have hzero : element = 0 → b = 0 := by
        intro helement
        have hprod := elements_collapse hcollapse
        rw [elements_nil, mul_one, helement, zero_mul] at hprod
        exact hprod.symm
      obtain ⟨u, hu, hreads, hremote⟩ := spreadVectorBuffer_fits hb hzero baseAddr rhs
        { buf := buf, reads := [], remote := remote }
      rw [hcollapse, Option.bind_some, if_pos rfl]
      refine ⟨u, hu, ?_, ?_⟩
      · rw [hremote]
        exact sectionAssigned_repeat hcollapse _ _ _
      · intro p hp r hr
        obtain rfl := (hreads p hp).resolve_right List.not_mem_nil
        omega
    · have hprod := elements_collapse hcollapse
      rw [elements_map_both, hempty, mul_zero] at hprod
      have hloops : elements axes.reverse = 0 := by rwa [elements_reverse]
      have hbytes : b = 0 ∨ elements (axes.reverse.take (rest.length : ℤ).toNat) = 0 := by
        rw [Int.toNat_natCast, elements_take (suffix_of_collapse hcollapse)]
        exact Nat.mul_eq_zero.mp hprod.symm
      have hiter := @spreadVectorIter_empty _ E orgAddr loc element _ _ _ hloops hfits hbytes
        baseAddr (rhs, { buf := buf, reads := [], remote := remote })
      rw [hcollapse, Option.bind_some, if_neg hrest, hiter, Option.map_some]
      refine ⟨_, rfl, sectionAssigned_none hempty _ _ _, ?_⟩
      intro p hp
      cases hp

/-- A scalar of four bytes put to every second one of the first three elements. -/
theorem putSpread_second_elements : ¬ ∀ (E : PutEnv) (orgAddr : ℤ) (loc : ℤ → ℕ) (element : ℕ)
    (axes : List Axis) (baseAddr rhs : ℤ) (buf remote : ℤ → ℕ), element % E.commUnit = 0 →
      element ∣ E.localBufSize →
      SpreadsScalar E orgAddr loc element axes baseAddr rhs buf remote := by
  intro hall
  obtain ⟨t, ht, -⟩ :=
    hall ⟨4, 400, false⟩ 0 (fun _ => 1) 4 [⟨2, 8, 0⟩] 0 0 (fun _ => 0) (fun _ => 0)
    (by decide) (by decide)
  have hnone : (putSpread ⟨4, 400, false⟩ 0 (fun _ => 1) 4 [⟨2, 8, 0⟩] 0 0 (fun _ => 0)
      (fun _ => 0)).isNone = true := by decide +kernel
  rw [ht] at hnone
  cases hnone

end OmniCompiler.Xmpf

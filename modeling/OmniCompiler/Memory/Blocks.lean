import Mathlib.Data.List.Pairwise
import Mathlib.Tactic

/-!
# Copying blocks of bytes

A memory is a function from addresses to contents. A block transfer moves `n`
consecutive cells; a copy routine is a list of transfers of one length. What a
routine has to achieve is stated by `IsAssignment`: every listed block holds the
old contents of its source and nothing else changes. Two lists of blocks that
move the same cells are interchangeable.
-/
namespace OmniCompiler.Memory

variable {β : Type*}

/-- `n` cells are copied from address `s` of `src` to address `d` of `mem`. -/
def transfer (n : ℕ) (src mem : ℤ → β) (d s : ℤ) : ℤ → β :=
  fun a => if d ≤ a ∧ a < d + n then src (s + (a - d)) else mem a

theorem transfer_inside {n r : ℕ} (hr : r < n) (src mem : ℤ → β) (d s : ℤ) :
    transfer n src mem d s (d + r) = src (s + r) := by
  have hin : d ≤ d + (r : ℤ) ∧ d + (r : ℤ) < d + n := by omega
  rw [transfer, if_pos hin, add_sub_cancel_left]

theorem transfer_outside {n : ℕ} {src mem : ℤ → β} {d s a : ℤ} (ha : ¬ (d ≤ a ∧ a < d + n)) :
    transfer n src mem d s a = mem a := if_neg ha

/-- The blocks of `blocks`, destination first, hold the contents of `src` and the other cells
are those of `mem`. -/
structure IsAssignment (n : ℕ) (blocks : List (ℤ × ℤ)) (src mem mem' : ℤ → β) : Prop where
  moved : ∀ p ∈ blocks, ∀ r : ℕ, r < n → mem' (p.1 + r) = src (p.2 + r)
  kept : ∀ a, (∀ p ∈ blocks, ∀ r : ℕ, r < n → a ≠ p.1 + r) → mem' a = mem a

def cells (n : ℕ) (blocks : List (ℤ × ℤ)) : List (ℤ × ℤ) :=
  blocks.flatMap fun p => (List.range n).map fun r : ℕ => (p.1 + r, p.2 + r)

theorem mem_cells {n : ℕ} {blocks : List (ℤ × ℤ)} {q : ℤ × ℤ} :
    q ∈ cells n blocks ↔ ∃ p ∈ blocks, ∃ r < n, q = (p.1 + (r : ℤ), p.2 + (r : ℤ)) := by
  simp only [cells, List.mem_flatMap, List.mem_map, List.mem_range]
  constructor
  · rintro ⟨p, hp, r, hr, rfl⟩
    exact ⟨p, hp, r, hr, rfl⟩
  · rintro ⟨p, hp, r, hr, rfl⟩
    exact ⟨p, hp, r, hr, rfl⟩

theorem isAssignment_iff_cells {n : ℕ} {blocks : List (ℤ × ℤ)} {src mem mem' : ℤ → β} :
    IsAssignment n blocks src mem mem' ↔
      (∀ q ∈ cells n blocks, mem' q.1 = src q.2) ∧
        ∀ a, (∀ q ∈ cells n blocks, a ≠ q.1) → mem' a = mem a := by
  constructor
  · intro h
    constructor
    · intro q hq
      obtain ⟨p, hp, r, hr, rfl⟩ := mem_cells.mp hq
      exact h.moved p hp r hr
    · intro a ha
      apply h.kept
      intro p hp r hr
      exact ha _ (mem_cells.mpr ⟨p, hp, r, hr, rfl⟩)
  · intro h
    constructor
    · intro p hp r hr
      exact h.1 _ (mem_cells.mpr ⟨p, hp, r, hr, rfl⟩)
    · intro a ha
      apply h.2
      intro q hq
      obtain ⟨p, hp, r, hr, rfl⟩ := mem_cells.mp hq
      exact ha p hp r hr

theorem isAssignment_congr {n m : ℕ} {blocks blocks' : List (ℤ × ℤ)} {src mem mem' : ℤ → β}
    (h : ∀ q, q ∈ cells n blocks ↔ q ∈ cells m blocks') :
    IsAssignment n blocks src mem mem' ↔ IsAssignment m blocks' src mem mem' := by
  rw [isAssignment_iff_cells, isAssignment_iff_cells]
  simp only [h]

/-! ## Running a list of transfers -/

/-- The transfers are made one after the other, each reading the unchanged `src`. -/
def transfers (n : ℕ) (src mem : ℤ → β) (blocks : List (ℤ × ℤ)) : ℤ → β :=
  blocks.foldl (fun m p => transfer n src m p.1 p.2) mem

@[simp] theorem transfers_nil (n : ℕ) (src mem : ℤ → β) : transfers n src mem [] = mem := rfl

@[simp] theorem transfers_cons (n : ℕ) (src mem : ℤ → β) (p : ℤ × ℤ) (blocks : List (ℤ × ℤ)) :
    transfers n src mem (p :: blocks) =
      transfers n src (transfer n src mem p.1 p.2) blocks := rfl

theorem transfers_outside {n : ℕ} {src : ℤ → β} {blocks : List (ℤ × ℤ)} {a : ℤ} (mem : ℤ → β)
    (ha : ∀ p ∈ blocks, ¬ (p.1 ≤ a ∧ a < p.1 + n)) : transfers n src mem blocks a = mem a := by
  induction blocks generalizing mem with
  | nil => rfl
  | cons p blocks ih =>
    rw [transfers_cons, ih _ fun q hq => ha q (List.mem_cons_of_mem _ hq)]
    exact transfer_outside (ha p List.mem_cons_self)

def DisjointBlocks (n : ℕ) (blocks : List (ℤ × ℤ)) : Prop :=
  blocks.Pairwise fun p q => p.1 + (n : ℤ) ≤ q.1 ∨ q.1 + (n : ℤ) ≤ p.1

theorem transfers_inside {n r : ℕ} {src : ℤ → β} {blocks : List (ℤ × ℤ)} (mem : ℤ → β)
    (hd : DisjointBlocks n blocks) {p : ℤ × ℤ} (hp : p ∈ blocks) (hr : r < n) :
    transfers n src mem blocks (p.1 + r) = src (p.2 + r) := by
  induction blocks generalizing mem with
  | nil => cases hp
  | cons q blocks ih =>
    rw [DisjointBlocks, List.pairwise_cons] at hd
    rw [transfers_cons]
    cases hp with
    | head =>
      -- the remaining blocks stay away from this one
      rw [transfers_outside]
      · exact transfer_inside hr src mem p.1 p.2
      · intro q hq hin
        have := hd.1 q hq
        omega
    | tail _ hp => exact ih _ hd.2 hp

theorem isAssignment_transfers {n : ℕ} {blocks : List (ℤ × ℤ)} (hd : DisjointBlocks n blocks)
    (src mem : ℤ → β) : IsAssignment n blocks src mem (transfers n src mem blocks) where
  moved p hp r hr := transfers_inside mem hd hp hr
  kept a ha := by
    apply transfers_outside
    intro p hp hin
    apply ha p hp (a - p.1).toNat
    · omega
    · omega

/-- Blocks may overlap as long as they bring the same contents, `f`, to the shared cells. -/
theorem isAssignment_transfers_of_agree {n : ℕ} {blocks : List (ℤ × ℤ)} {src f : ℤ → β}
    (hf : ∀ p ∈ blocks, ∀ r : ℕ, r < n → src (p.2 + r) = f (p.1 + r)) (mem : ℤ → β) :
    IsAssignment n blocks src mem (transfers n src mem blocks) := by
  have hin : ∀ (blocks : List (ℤ × ℤ)) (mem : ℤ → β) (a : ℤ),
      (∀ p ∈ blocks, ∀ r : ℕ, r < n → src (p.2 + r) = f (p.1 + r)) →
      (mem a = f a ∨ ∃ p ∈ blocks, p.1 ≤ a ∧ a < p.1 + n) → transfers n src mem blocks a = f a := by
    intro blocks
    induction blocks with
    | nil =>
      intro mem a _ h
      exact h.resolve_right (by simp)
    | cons p blocks ih =>
      intro mem a hf h
      rw [transfers_cons]
      apply ih _ _ fun q hq => hf q (List.mem_cons_of_mem _ hq)
      by_cases ha : p.1 ≤ a ∧ a < p.1 + n
      · left
        obtain ⟨r, rfl⟩ : ∃ r : ℕ, a = p.1 + r := ⟨(a - p.1).toNat, by omega⟩
        have hr : r < n := by omega
        rw [transfer_inside hr, hf p List.mem_cons_self r hr]
      · rw [transfer_outside ha]
        apply h.imp_right
        rintro ⟨q, hq, hqa⟩
        rw [List.mem_cons] at hq
        obtain rfl | hq := hq
        · exact absurd hqa ha
        · exact ⟨q, hq, hqa⟩
  constructor
  · intro p hp r hr
    rw [hf p hp r hr]
    exact hin blocks mem _ hf (Or.inr ⟨p, hp, by omega, by omega⟩)
  · intro a ha
    apply transfers_outside
    intro p hp hpa
    exact ha p hp (a - p.1).toNat (by omega) (by omega)

/-- The transfers are made inside one memory, each reading what the earlier ones left. -/
def moves (n : ℕ) (mem : ℤ → β) (blocks : List (ℤ × ℤ)) : ℤ → β :=
  blocks.foldl (fun m p => transfer n m m p.1 p.2) mem

/-- While no destination meets a source, the earlier transfers cannot be seen. -/
theorem moves_eq_transfers {n : ℕ} {blocks : List (ℤ × ℤ)} {src : ℤ → β}
    (hsep : ∀ p ∈ blocks, ∀ q ∈ blocks, p.1 + n ≤ q.2 ∨ q.2 + n ≤ p.1) (mem : ℤ → β)
    (hsrc : ∀ p ∈ blocks, ∀ r : ℕ, r < n → mem (p.2 + r) = src (p.2 + r)) :
    moves n mem blocks = transfers n src mem blocks := by
  induction blocks generalizing mem with
  | nil => rfl
  | cons p blocks ih =>
    have hfirst : transfer n mem mem p.1 p.2 = transfer n src mem p.1 p.2 := by
      funext a
      by_cases ha : p.1 ≤ a ∧ a < p.1 + n
      · obtain ⟨r, rfl⟩ : ∃ r : ℕ, a = p.1 + r := ⟨(a - p.1).toNat, by omega⟩
        have hr : r < n := by omega
        rw [transfer_inside hr, transfer_inside hr]
        exact hsrc p List.mem_cons_self r hr
      · rw [transfer_outside ha, transfer_outside ha]
    have hrest := ih (fun q hq q' hq' => hsep q (List.mem_cons_of_mem _ hq) q'
      (List.mem_cons_of_mem _ hq')) (transfer n src mem p.1 p.2) ?_
    · rw [transfers_cons, ← hrest, moves, moves, List.foldl_cons, hfirst]
    · intro q hq r hr
      rw [transfer_outside]
      · exact hsrc q (List.mem_cons_of_mem _ hq) r hr
      · intro hin
        have := hsep p List.mem_cons_self q (List.mem_cons_of_mem _ hq)
        omega

/-! ## Blocks given by their offsets -/

/-- The cells of the blocks of length `n` that start at the offsets `ss`. -/
def span (n : ℕ) (ss : List ℕ) : List ℕ := ss.flatMap fun s => List.range' s n

@[simp] theorem span_nil (n : ℕ) : span n [] = [] := rfl

@[simp] theorem span_cons (n s : ℕ) (ss : List ℕ) :
    span n (s :: ss) = List.range' s n ++ span n ss := rfl

theorem span_append (n : ℕ) (ss ts : List ℕ) : span n (ss ++ ts) = span n ss ++ span n ts := by
  simp [span]

theorem span_map_add (n x : ℕ) (ss : List ℕ) :
    span n (ss.map (x + ·)) = (span n ss).map (x + ·) := by
  induction ss with
  | nil => rfl
  | cons s ss ih => simp [ih, List.map_add_range']

theorem span_flatMap (n : ℕ) {α : Type*} (l : List α) (f : α → List ℕ) :
    span n (l.flatMap f) = l.flatMap fun a => span n (f a) := by
  induction l with
  | nil => rfl
  | cons a l ih => simp [span_append, ih]

theorem length_span (n : ℕ) (ss : List ℕ) : (span n ss).length = ss.length * n := by
  induction ss with
  | nil => simp
  | cons s ss ih => rw [span_cons, List.length_append, ih, List.length_range', List.length_cons,
      add_one_mul, Nat.add_comm]

theorem span_multiples (n k : ℕ) : span n ((List.range k).map (· * n)) = List.range' 0 (k * n) := by
  induction k with
  | zero => simp
  | succ k ih =>
    rw [List.range_succ, List.map_append, span_append, ih, add_one_mul, List.range'_append_1.symm]
    simp

theorem mem_span {n : ℕ} {ss : List ℕ} {a : ℕ} : a ∈ span n ss ↔ ∃ s ∈ ss, s ≤ a ∧ a < s + n := by
  simp [span, List.mem_range'_1]

theorem getElem?_span {n r : ℕ} (hr : r < n) (ss : List ℕ) (i : ℕ) :
    (span n ss)[i * n + r]? = ss[i]?.map (· + r) := by
  induction ss generalizing i with
  | nil => simp
  | cons s ss ih =>
    rw [span_cons]
    cases i with
    | zero =>
      rw [zero_mul, zero_add, List.getElem?_append_left (by simpa using hr),
        List.getElem?_range' hr, one_mul]
      rfl
    | succ i =>
      have hlen : (List.range' s n).length ≤ (i + 1) * n + r := by
        rw [List.length_range', add_one_mul]
        omega
      have hidx : (i + 1) * n + r - (List.range' s n).length = i * n + r := by
        rw [List.length_range', add_one_mul]
        omega
      rw [List.getElem?_append_right hlen, hidx, ih, List.getElem?_cons_succ]

theorem pairwise_of_span {n : ℕ} (hn : 0 < n) {ss : List ℕ} (h : (span n ss).Pairwise (· < ·)) :
    ss.Pairwise fun s t => s + n ≤ t := by
  induction ss with
  | nil => exact List.Pairwise.nil
  | cons s ss ih =>
    rw [span_cons, List.pairwise_append] at h
    apply List.Pairwise.cons
    · intro t ht
      have hlt := h.2.2 (s + (n - 1)) (by rw [List.mem_range'_1]; omega) t
        (mem_span.mpr ⟨t, ht, le_rfl, by omega⟩)
      omega
    · exact ih h.2.1

/-- Block `i` of `ss` from address `dst` is moved from block `i` of `ts` at address `src`. -/
def blocksAt (dst src : ℤ) (ss ts : List ℕ) : List (ℤ × ℤ) :=
  (ss.zip ts).map fun p => (dst + p.1, src + p.2)

theorem cells_blocksAt (n : ℕ) (dst src : ℤ) {ss ts : List ℕ} (h : ss.length = ts.length) :
    cells n (blocksAt dst src ss ts) = blocksAt dst src (span n ss) (span n ts) := by
  induction ss generalizing ts with
  | nil => rfl
  | cons s ss ih =>
    cases ts with
    | nil => simp at h
    | cons t ts =>
      have hrow : (List.range n).map (fun r : ℕ => (dst + (s : ℤ) + r, src + (t : ℤ) + r)) =
          blocksAt dst src (List.range' s n) (List.range' t n) := by
        apply List.ext_getElem
        · simp [blocksAt]
        · intro i h1 h2
          simp [blocksAt, add_assoc]
      have hrest := ih (by simpa using h)
      have happ : blocksAt dst src (span n (s :: ss)) (span n (t :: ts)) =
          blocksAt dst src (List.range' s n) (List.range' t n) ++
            blocksAt dst src (span n ss) (span n ts) := by
        rw [blocksAt, span_cons, span_cons, List.zip_append (by simp), List.map_append]
        rfl
      rw [happ, ← hrest, ← hrow]
      rfl

theorem isAssignment_blocksAt_congr {n m : ℕ} {dst src : ℤ} {ss ts ss' ts' : List ℕ}
    {old mem mem' : ℤ → β} (h : ss.length = ts.length) (h' : ss'.length = ts'.length)
    (hs : span n ss = span m ss') (ht : span n ts = span m ts') :
    IsAssignment n (blocksAt dst src ss ts) old mem mem' ↔
      IsAssignment m (blocksAt dst src ss' ts') old mem mem' := by
  apply isAssignment_congr
  intro q
  rw [cells_blocksAt n dst src h, cells_blocksAt m dst src h', hs, ht]

theorem disjointBlocks_blocksAt {n : ℕ} (dst src : ℤ) {ss : List ℕ} (ts : List ℕ)
    (h : ss.Pairwise fun s t => s + n ≤ t) : DisjointBlocks n (blocksAt dst src ss ts) := by
  induction ss generalizing ts with
  | nil => exact List.Pairwise.nil
  | cons s ss ih =>
    cases ts with
    | nil => exact List.Pairwise.nil
    | cons t ts =>
      rw [List.pairwise_cons] at h
      apply List.Pairwise.cons
      · intro q hq
        simp only [List.mem_map] at hq
        obtain ⟨p, hp, rfl⟩ := hq
        have := h.1 p.1 (List.of_mem_zip hp).1
        left
        simp only
        omega
      · exact ih ts h.2

/-! ## Two copies in a row, and `memcpy` -/

theorem IsAssignment.comp {n : ℕ} {dst mid src : ℤ} {ss us ts : List ℕ}
    {old fresh tmp mem mem' : ℤ → β} (hu : us.length = ts.length) (hs : ss.length = us.length)
    (h1 : IsAssignment n (blocksAt mid src us ts) old fresh tmp)
    (h2 : IsAssignment n (blocksAt dst mid ss us) tmp mem mem') :
    IsAssignment n (blocksAt dst src ss ts) old mem mem' := by
  have hnth : ∀ (a b : ℤ) (xs ys : List ℕ) (i : ℕ) (hx : i < xs.length) (hy : i < ys.length),
      (a + (xs[i] : ℤ), b + (ys[i] : ℤ)) ∈ blocksAt a b xs ys := by
    intro a b xs ys i hx hy
    rw [blocksAt, List.mem_map]
    exact ⟨(xs[i], ys[i]), List.mem_iff_getElem.mpr ⟨i, by simp [hx, hy], by simp⟩, rfl⟩
  have hget : ∀ p ∈ blocksAt dst src ss ts, ∃ (i : ℕ) (_ : i < ss.length) (_ : i < ts.length),
      p = (dst + (ss[i] : ℤ), src + (ts[i] : ℤ)) := by
    intro p hp
    rw [blocksAt, List.mem_map] at hp
    obtain ⟨q, hq, rfl⟩ := hp
    obtain ⟨i, hi, rfl⟩ := List.mem_iff_getElem.mp hq
    rw [List.length_zip] at hi
    exact ⟨i, by omega, by omega, by simp⟩
  constructor
  · intro p hp r hr
    obtain ⟨i, hi, hi', rfl⟩ := hget p hp
    have hiu : i < us.length := by omega
    rw [h2.moved _ (hnth dst mid ss us i hi hiu) r hr]
    exact h1.moved _ (hnth mid src us ts i hiu hi') r hr
  · intro a ha
    apply h2.kept
    intro p hp r hr
    rw [blocksAt, List.mem_map] at hp
    obtain ⟨q, hq, rfl⟩ := hp
    obtain ⟨i, hi, rfl⟩ := List.mem_iff_getElem.mp hq
    rw [List.length_zip] at hi
    have := ha _ (hnth dst src ss ts i (by omega) (by omega)) r hr
    simpa using this

/-- C's `memmove`. -/
def memmove (n : ℕ) (mem : ℤ → β) (d s : ℤ) : ℤ → β := transfer n mem mem d s

/-- C's `memcpy`, undefined when the two regions share a byte. -/
def memcpy (n : ℕ) (mem : ℤ → β) (d s : ℤ) : Option (ℤ → β) :=
  if 0 < n ∧ d < s + n ∧ s < d + n then none else some (transfer n mem mem d s)

theorem memcpy_of_sep {n : ℕ} (mem : ℤ → β) {d s : ℤ} (h : d + n ≤ s ∨ s + n ≤ d) :
    memcpy n mem d s = some (transfer n mem mem d s) := by
  apply if_neg
  omega

theorem foldlM_memcpy {n : ℕ} {blocks : List (ℤ × ℤ)} (mem : ℤ → β)
    (hsep : ∀ p ∈ blocks, p.1 + n ≤ p.2 ∨ p.2 + n ≤ p.1) :
    blocks.foldlM (fun m p => memcpy n m p.1 p.2) mem = some (moves n mem blocks) := by
  induction blocks generalizing mem with
  | nil => rfl
  | cons p blocks ih =>
    rw [List.foldlM_cons, memcpy_of_sep mem (hsep p List.mem_cons_self)]
    exact ih _ fun q hq => hsep q (List.mem_cons_of_mem _ hq)

end OmniCompiler.Memory

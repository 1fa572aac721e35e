import OmniCompiler.Arithmetic.SmallFin
import OmniCompiler.Concurrency.Interleaving

/-!
# `sync images` (`xmp_coarray_mpi.c`)

A rank notifies the ranks of its image set and then waits for one notification from each of them.
Notifications from other ranks arrive during the wait as well; the table keeps them for later calls.
The entries of the table are `unsigned int`.
-/
namespace OmniCompiler.Xmp.SyncImages

open Interleaving SmallFin

variable {n : ℕ}

/-- The ranks of `image_set`; their number is an `int`. -/
structure ImageSet (n : ℕ) where
  ranks : List (Fin n)
  num_lt : ranks.length < 2 ^ 31

/-- Where a rank is: outside of the call, in `_notify_sync_images`, before the loop over `rank_set`
in `_wait_sync_images`, and in `MPI_Recv`. -/
inductive Phase
  | idle
  | notify
  | wait
  | recv
  deriving DecidableEq

/-- A rank with the calls before it. `finished` holds the entries of the image sets of the calls
that have returned; in `rankSet` the entry -1 is `none`. -/
structure Rank (n : ℕ) where
  calls : List (ImageSet n)
  finished : List (Fin n)
  current : List (Fin n)
  phase : Phase
  toNotify : List (Fin n)
  rankSet : List (Option (Fin n))
  table : Fin n → ℕ

/-- `_add_sync_images_table`. -/
def addTable (table : Fin n → ℕ) (rank : Fin n) (value : ℤ) : Fin n → ℕ :=
  Function.update table rank ((table rank + value) % 2 ^ 32).toNat

/-- The loop over `rank_set`: the table, the set and `flag` after it. -/
def scan : (Fin n → ℕ) → List (Option (Fin n)) → (Fin n → ℕ) × List (Option (Fin n)) × Bool
  | table, [] => (table, [], true)
  | table, none :: set =>
    let r := scan table set
    (r.1, none :: r.2.1, r.2.2)
  | table, some q :: set =>
    if 0 < table q then
      let r := scan (addTable table q (-1)) set
      (r.1, none :: r.2.1, r.2.2)
    else
      let r := scan table set
      (r.1, some q :: r.2.1, false)

/-- All ranks, and the messages on their way: `inFlight p q` to `p` from `q`. `sent q p` counts the
notifications of `q` to `p`, and `consumed p q` the waits of `p` for `q` that are over. -/
structure World (n : ℕ) where
  rank : Fin n → Rank n
  inFlight : Fin n → Fin n → ℕ
  sent : Fin n → Fin n → ℕ
  consumed : Fin n → Fin n → ℕ

def bump (f : Fin n → Fin n → ℕ) (p q : Fin n) : Fin n → Fin n → ℕ :=
  Function.update f p (Function.update (f p) q (f p q + 1))

namespace World

def set (s : World n) (p : Fin n) (r : Rank n) : World n :=
  { s with rank := Function.update s.rank p r }

/-- `_XMP_mpi_sync_images` is called. -/
def call (s : World n) (p : Fin n) (image : ImageSet n) (calls : List (ImageSet n)) : World n :=
  if image.ranks = [] then s.set p { s.rank p with calls := calls }
  else s.set p { s.rank p with
    calls := calls
    current := image.ranks
    phase := .notify
    toNotify := image.ranks
    rankSet := image.ranks.map some }

def notify (s : World n) (p q : Fin n) (rest : List (Fin n)) : World n :=
  let s' := { s with sent := bump s.sent p q }
  if q = p then
    s'.set p { s.rank p with toNotify := rest, table := addTable (s.rank p).table p 1 }
  else
    let s'' := { s' with inFlight := bump s.inFlight q p }
    s''.set p { s.rank p with toNotify := rest }

def scanSet (s : World n) (p : Fin n) : World n :=
  let r := scan (s.rank p).table (s.rank p).rankSet
  let consumed : Fin n → ℕ := fun q =>
    s.consumed p q + ((s.rank p).rankSet.count (some q) - r.2.1.count (some q))
  let s' := { s with consumed := Function.update s.consumed p consumed }
  if r.2.2 then
    s'.set p { s.rank p with
      finished := (s.rank p).finished ++ (s.rank p).current
      current := []
      phase := .idle
      rankSet := []
      table := r.1 }
  else s'.set p { s.rank p with phase := .recv, rankSet := r.2.1, table := r.1 }

/-- `MPI_Recv` from any source returns a message of `q`. -/
def recv (s : World n) (p q : Fin n) : World n :=
  let inFlight := Function.update (s.inFlight p) q (s.inFlight p q - 1)
  let s' := { s with inFlight := Function.update s.inFlight p inFlight }
  s'.set p { s.rank p with phase := .wait, table := addTable (s.rank p).table q 1 }

end World

inductive Move (n : ℕ)
  | call (p : Fin n)
  | notify (p : Fin n)
  | scan (p : Fin n)
  | recv (p q : Fin n)

def step : Move n → World n → Option (World n)
  | .call p, s =>
    match (s.rank p).phase, (s.rank p).calls with
    | .idle, image :: calls => some (s.call p image calls)
    | _, _ => none
  | .notify p, s =>
    match (s.rank p).phase, (s.rank p).toNotify with
    | .notify, q :: rest => some (s.notify p q rest)
    | .notify, [] => some (s.set p { s.rank p with phase := .wait })
    | _, _ => none
  | .scan p, s => if (s.rank p).phase = .wait then some (s.scanSet p) else none
  | .recv p q, s =>
    if (s.rank p).phase = .recv ∧ 0 < s.inFlight p q then some (s.recv p q) else none

/-- The state after `_XMP_mpi_build_sync_images_table`, with the calls that each rank is to make. -/
structure Start (calls : Fin n → List (ImageSet n)) (s : World n) : Prop where
  rank : ∀ p, s.rank p = ⟨calls p, [], [], .idle, [], [], fun _ => 0⟩
  inFlight : ∀ p q, s.inFlight p q = 0
  sent : ∀ p q, s.sent p q = 0
  consumed : ∀ p q, s.consumed p q = 0

/-! ## The table -/

theorem addTable_succ {table : Fin n → ℕ} {q : Fin n} (h : table q + 1 < 2 ^ 32) :
    addTable table q 1 = Function.update table q (table q + 1) := by
  rw [addTable]
  congr 1
  omega

theorem addTable_pred {table : Fin n → ℕ} {q : Fin n} (h0 : 0 < table q) (h : table q < 2 ^ 32) :
    addTable table q (-1) = Function.update table q (table q - 1) := by
  rw [addTable]
  congr 1
  omega

theorem scan_spec (set : List (Option (Fin n))) (table : Fin n → ℕ) (h : ∀ q, table q < 2 ^ 32) :
    (∀ q, (scan table set).1 q + set.count (some q) =
      table q + (scan table set).2.1.count (some q)) ∧
    (∀ q, (scan table set).2.1.count (some q) ≤ set.count (some q)) ∧
    ((scan table set).2.2 = true → ∀ q, (scan table set).2.1.count (some q) = 0) := by
  induction set generalizing table with
  | nil => simp [scan]
  | cons entry set ih =>
    cases entry with
    | none =>
      obtain ⟨hcount, hle, hflag⟩ := ih table h
      simp only [scan, List.count_cons, beq_iff_eq, reduceCtorEq, if_false, add_zero]
      exact ⟨hcount, hle, hflag⟩
    | some q =>
      rw [scan]
      by_cases hq : 0 < table q
      · rw [if_pos hq, addTable_pred hq (h q)]
        have hlt : ∀ q', Function.update table q (table q - 1) q' < 2 ^ 32 := by
          intro q'
          by_cases hqq : q' = q
          · have := h q
            rw [hqq, Function.update_self]
            omega
          · rw [Function.update_of_ne hqq]
            exact h q'
        obtain ⟨hcount, hle, hflag⟩ := ih _ hlt
        dsimp only
        refine ⟨?_, ?_, ?_⟩
        · intro q'
          have hq' := hcount q'
          by_cases hqq : q' = q
          · subst hqq
            rw [Function.update_self] at hq'
            simp
            omega
          · rw [Function.update_of_ne hqq] at hq'
            simpa [Ne.symm hqq] using hq'
        · intro q'
          have := hle q'
          simp only [List.count_cons, beq_iff_eq, reduceCtorEq, if_false]
          omega
        · intro hf q'
          simpa using hflag hf q'
      · rw [if_neg hq]
        obtain ⟨hcount, hle, -⟩ := ih table h
        dsimp only
        refine ⟨?_, ?_, ?_⟩
        · intro q'
          have := hcount q'
          simp only [List.count_cons]
          omega
        · intro q'
          have := hle q'
          simp only [List.count_cons]
          omega
        · intro hf
          cases hf

/-! ## What every step keeps -/

structure Rank.Sound (r : Rank n) (sent consumed : Fin n → ℕ) : Prop where
  notified : ∀ q, sent q + r.toNotify.count q = r.finished.count q + r.current.count q
  waited : ∀ q, consumed q + r.rankSet.count (some q) = r.finished.count q + r.current.count q
  left : ∀ q, r.rankSet.count (some q) ≤ r.current.count q
  num_lt : r.current.length < 2 ^ 31
  toNotify : r.phase ≠ .notify → r.toNotify = []
  idle : r.phase = .idle → r.current = [] ∧ r.rankSet = []

structure Inv (s : World n) : Prop where
  rank : ∀ p, (s.rank p).Sound (s.sent p) (s.consumed p)
  balance : ∀ p q, (s.rank p).table q + s.inFlight p q + s.consumed p q = s.sent q p

namespace Inv

variable {s : World n} (h : Inv s)

include h

/-- A rank is ahead of its partner by the two current calls at most, so that no entry wraps. -/
theorem sent_lt (p q : Fin n) : s.sent q p + 1 < s.consumed p q + 2 ^ 32 := by
  have hp := h.rank p
  have hq := h.rank q
  have h₁ := hq.notified p
  have h₂ := hq.waited p
  have h₃ := hq.left p
  have h₄ := h.balance q p
  have h₅ := hp.notified q
  have h₆ := hp.waited q
  have h₇ := hp.left q
  have hlp := hp.num_lt
  have hlq := hq.num_lt
  have hcp : (s.rank p).current.count q ≤ (s.rank p).current.length := List.count_le_length
  have hcq : (s.rank q).current.count p ≤ (s.rank q).current.length := List.count_le_length
  omega

theorem table_lt (p q : Fin n) : (s.rank p).table q < 2 ^ 32 := by
  have h₁ := h.balance p q
  have h₂ := h.sent_lt p q
  omega

end Inv

theorem World.set_rank_self (s : World n) (p : Fin n) (r : Rank n) : (s.set p r).rank p = r := by
  simp [World.set]

theorem World.set_rank_of_ne (s : World n) {p p' : Fin n} (hp : p' ≠ p) (r : Rank n) :
    (s.set p r).rank p' = s.rank p' := by
  simp [World.set, hp]

theorem bump_self (f : Fin n → Fin n → ℕ) (p q : Fin n) : bump f p q p q = f p q + 1 := by
  simp [bump]

theorem bump_of_ne (f : Fin n → Fin n → ℕ) {p q a b : Fin n} (hab : ¬ (a = p ∧ b = q)) :
    bump f p q a b = f a b := by
  by_cases ha : a = p
  · have hb : b ≠ q := fun hb => hab ⟨ha, hb⟩
    subst ha
    simp [bump, hb]
  · simp [bump, ha]

theorem Inv.set {s : World n} (h : Inv s) {p : Fin n} {r : Rank n}
    (hr : r.Sound (s.sent p) (s.consumed p)) (htable : r.table = (s.rank p).table) :
    Inv (s.set p r) := by
  constructor
  · intro p'
    by_cases hp : p' = p
    · subst hp
      rw [World.set_rank_self]
      exact hr
    · rw [World.set_rank_of_ne s hp]
      exact h.rank p'
  · intro p' q
    have hbal := h.balance p' q
    by_cases hp : p' = p
    · subst hp
      rw [World.set_rank_self, htable]
      exact hbal
    · rw [World.set_rank_of_ne s hp]
      exact hbal

theorem Inv.call {s : World n} (h : Inv s) {p : Fin n} (hidle : (s.rank p).phase = .idle)
    (image : ImageSet n) (calls : List (ImageSet n)) : Inv (s.call p image calls) := by
  have hp := h.rank p
  obtain ⟨hcur, hset⟩ := hp.idle hidle
  have hto : (s.rank p).toNotify = [] := hp.toNotify (by simp [hidle])
  rw [World.call]
  split_ifs with hempty
  · apply h.set
    · exact ⟨hp.notified, hp.waited, hp.left, hp.num_lt, hp.toNotify, hp.idle⟩
    · rfl
  · have hcount : ∀ q, (image.ranks.map some).count (some q) = image.ranks.count q :=
      fun q => List.count_map_of_injective image.ranks some (Option.some_injective _) q
    apply h.set
    · constructor
      · intro q
        have := hp.notified q
        rw [hto, hcur] at this
        simpa using this
      · intro q
        have := hp.waited q
        rw [hset, hcur] at this
        dsimp only
        rw [hcount]
        simpa using this
      · intro q
        exact (hcount q).le
      · exact image.num_lt
      · intro hne
        exact absurd rfl hne
      · intro hne
        cases hne
    · rfl

theorem Inv.notify {s : World n} (h : Inv s) {p q : Fin n} {rest : List (Fin n)}
    (hphase : (s.rank p).phase = .notify) (hto : (s.rank p).toNotify = q :: rest) :
    Inv (s.notify p q rest) := by
  have hp := h.rank p
  have hsound : ∀ table, Rank.Sound { s.rank p with toNotify := rest, table := table }
      (bump s.sent p q p) (s.consumed p) := by
    intro table
    constructor
    · intro q'
      have hq' := hp.notified q'
      rw [hto] at hq'
      by_cases hqq : q' = q
      · subst hqq
        rw [bump_self]
        rw [List.count_cons_self] at hq'
        dsimp only
        omega
      · rw [bump_of_ne s.sent (by simp [hqq])]
        rwa [List.count_cons_of_ne (Ne.symm hqq)] at hq'
    · exact hp.waited
    · exact hp.left
    · exact hp.num_lt
    · intro hne
      exact absurd hphase hne
    · exact hp.idle
  have hrow : ∀ p', p' ≠ p → bump s.sent p q p' = s.sent p' := by
    intro p' hne
    exact Function.update_of_ne hne _ _
  rw [World.notify]
  dsimp only
  split_ifs with hqp
  · subst hqp
    have hlt := h.sent_lt q q
    have hbalance := h.balance q q
    rw [addTable_succ (by omega)]
    constructor
    · intro p'
      by_cases hne : p' = q
      · subst hne
        rw [World.set_rank_self]
        exact hsound _
      · rw [World.set_rank_of_ne _ hne]
        show Rank.Sound _ (bump s.sent q q p') _
        rw [hrow p' hne]
        exact h.rank p'
    · intro p' q'
      have hbal := h.balance p' q'
      show _ + s.inFlight p' q' + s.consumed p' q' = bump s.sent q q q' p'
      by_cases hne : p' = q
      · subst hne
        rw [World.set_rank_self]
        dsimp only
        by_cases hqq : q' = p'
        · subst hqq
          rw [Function.update_self, bump_self]
          omega
        · rw [Function.update_of_ne hqq, bump_of_ne _ (by simp [hqq])]
          exact hbal
      · rw [World.set_rank_of_ne _ hne, bump_of_ne _ (by simp [hne])]
        exact hbal
  · constructor
    · intro p'
      by_cases hne : p' = p
      · subst hne
        rw [World.set_rank_self]
        exact hsound _
      · rw [World.set_rank_of_ne _ hne]
        show Rank.Sound _ (bump s.sent p q p') _
        rw [hrow p' hne]
        exact h.rank p'
    · intro p' q'
      have hbal := h.balance p' q'
      show _ + bump s.inFlight q p p' q' + s.consumed p' q' = bump s.sent p q q' p'
      have htable :
        ((World.set { s with sent := bump s.sent p q, inFlight := bump s.inFlight q p } p
          { s.rank p with toNotify := rest }).rank p').table = (s.rank p').table := by
        by_cases hne : p' = p
        · subst hne
          rw [World.set_rank_self]
        · rw [World.set_rank_of_ne _ hne]
      rw [htable]
      by_cases hpair : p' = q ∧ q' = p
      · obtain ⟨rfl, rfl⟩ := hpair
        rw [bump_self, bump_self]
        omega
      · rw [bump_of_ne _ hpair, bump_of_ne _ (fun h' => hpair ⟨h'.2, h'.1⟩)]
        exact hbal

theorem Inv.beginWait {s : World n} (h : Inv s) {p : Fin n} (hto : (s.rank p).toNotify = []) :
    Inv (s.set p { s.rank p with phase := .wait }) := by
  have hp := h.rank p
  apply h.set
  · constructor
    · exact hp.notified
    · exact hp.waited
    · exact hp.left
    · exact hp.num_lt
    · intro _
      exact hto
    · intro hidle
      cases hidle
  · rfl

theorem Inv.scanSet {s : World n} (h : Inv s) {p : Fin n} (hwait : (s.rank p).phase = .wait) :
    Inv (s.scanSet p) := by
  have hp := h.rank p
  have hto : (s.rank p).toNotify = [] := hp.toNotify (by simp [hwait])
  obtain ⟨hcount, hle, hflag⟩ := scan_spec (s.rank p).rankSet (s.rank p).table (h.table_lt p)
  rw [World.scanSet]
  generalize scan (s.rank p).table (s.rank p).rankSet = r at hcount hle hflag ⊢
  dsimp only
  have hrow : ∀ x : Rank n, x.table = r.1 →
      x.Sound (s.sent p) (fun q =>
        s.consumed p q + ((s.rank p).rankSet.count (some q) - r.2.1.count (some q))) →
      Inv (World.set { s with consumed := Function.update s.consumed p fun q =>
        (s.consumed p q + ((s.rank p).rankSet.count (some q) - r.2.1.count (some q))) } p x) := by
    intro x htable hx
    constructor
    · intro p'
      show Rank.Sound _ (s.sent p') (Function.update s.consumed p _ p')
      by_cases hne : p' = p
      · subst hne
        rw [World.set_rank_self, Function.update_self]
        exact hx
      · rw [World.set_rank_of_ne _ hne, Function.update_of_ne hne]
        exact h.rank p'
    · intro p' q
      show _ + s.inFlight p' q + Function.update s.consumed p _ p' q = s.sent q p'
      have hbal := h.balance p' q
      by_cases hne : p' = p
      · subst hne
        have h₁ := hcount q
        have h₂ := hle q
        rw [World.set_rank_self, Function.update_self, htable]
        omega
      · rw [World.set_rank_of_ne _ hne, Function.update_of_ne hne]
        exact hbal
  split_ifs with hf
  · apply hrow _ rfl
    have hnone := hflag hf
    constructor
    · intro q
      have := hp.notified q
      rw [hto] at this ⊢
      simpa using this
    · intro q
      have := hp.waited q
      simpa [hnone q] using this
    · simp
    · simp
    · intro _
      exact hto
    · intro _
      exact ⟨rfl, rfl⟩
  · apply hrow _ rfl
    constructor
    · exact hp.notified
    · intro q
      have h₁ := hp.waited q
      have h₂ := hle q
      dsimp only
      omega
    · intro q
      exact (hle q).trans (hp.left q)
    · exact hp.num_lt
    · intro _
      exact hto
    · intro hidle
      cases hidle

theorem Inv.recv {s : World n} (h : Inv s) {p q : Fin n} (hrecv : (s.rank p).phase = .recv)
    (hpos : 0 < s.inFlight p q) : Inv (s.recv p q) := by
  have hp := h.rank p
  have hlt := h.sent_lt p q
  have hbalance := h.balance p q
  rw [World.recv, addTable_succ (by omega)]
  dsimp only
  constructor
  · intro p'
    show Rank.Sound _ (s.sent p') (s.consumed p')
    by_cases hne : p' = p
    · subst hne
      rw [World.set_rank_self]
      constructor
      · exact hp.notified
      · exact hp.waited
      · exact hp.left
      · exact hp.num_lt
      · intro _
        exact hp.toNotify (by simp [hrecv])
      · intro hidle
        cases hidle
    · rw [World.set_rank_of_ne _ hne]
      exact h.rank p'
  · intro p' q'
    show _ + Function.update s.inFlight p
      (Function.update (s.inFlight p) q (s.inFlight p q - 1)) p' q' +
      s.consumed p' q' = s.sent q' p'
    have hbal := h.balance p' q'
    by_cases hne : p' = p
    · subst hne
      rw [World.set_rank_self, Function.update_self]
      dsimp only
      by_cases hqq : q' = q
      · subst hqq
        rw [Function.update_self, Function.update_self]
        omega
      · rw [Function.update_of_ne hqq, Function.update_of_ne hqq]
        exact hbal
    · rw [World.set_rank_of_ne _ hne, Function.update_of_ne hne]
      exact hbal

theorem Inv.step {s s' : World n} {m : Move n} (h : Inv s) (hs : step m s = some s') : Inv s' := by
  cases m with
  | call p =>
    simp only [SyncImages.step] at hs
    split at hs
    · next image calls hidle _ =>
      cases hs
      exact h.call hidle image calls
    · cases hs
  | notify p =>
    simp only [SyncImages.step] at hs
    split at hs
    · next q rest hphase hto =>
      cases hs
      exact h.notify hphase hto
    · next hto =>
      cases hs
      exact h.beginWait hto
    · cases hs
  | scan p =>
    simp only [SyncImages.step] at hs
    split_ifs at hs with hwait
    cases hs
    exact h.scanSet hwait
  | recv p q =>
    simp only [SyncImages.step] at hs
    split_ifs at hs with hrecv
    cases hs
    exact h.recv hrecv.1 hrecv.2

theorem Start.inv {calls : Fin n → List (ImageSet n)} {s : World n}
    (h : Start calls s) : Inv s := by
  constructor
  · intro p
    rw [h.rank p]
    constructor
    · simp [h.sent]
    · simp [h.consumed]
    · simp
    · simp
    · simp
    · simp
  · intro p q
    simp [h.rank, h.inFlight, h.sent, h.consumed]

theorem reachable_inv {calls : Fin n → List (ImageSet n)} {s : World n}
    (h : Reachable (Start calls) step s) : Inv s := by
  apply Reachable.invariant h
  · intro s hs
    exact hs.inv
  · intro m s s' hi hs
    exact hi.step hs

/-! ## The calls -/

/-- The entries of all image sets of the rank, in the order of its calls. -/
def Rank.entries (r : Rank n) : List (Fin n) :=
  r.finished ++ r.current ++ r.calls.flatMap ImageSet.ranks

theorem step_entries {s s' : World n} {m : Move n} (h : Inv s) (hs : step m s = some s')
    (p : Fin n) :
    (s'.rank p).entries = (s.rank p).entries := by
  have hset : ∀ (t : World n) (p' : Fin n) (r : Rank n), t.rank = s.rank →
      r.entries = (s.rank p').entries → ((t.set p' r).rank p).entries = (s.rank p).entries := by
    intro t p' r ht hr
    by_cases hp : p = p'
    · subst hp
      rw [World.set_rank_self, hr]
    · rw [World.set_rank_of_ne t hp, ht]
  cases m with
  | call p' =>
    simp only [step] at hs
    split at hs
    · next image calls hidle hcalls =>
      cases hs
      obtain ⟨hcur, -⟩ := (h.rank p').idle hidle
      rw [World.call]
      split_ifs with hempty
      · apply hset s p'
        · rfl
        · simp [Rank.entries, hcalls, hempty]
      · apply hset s p'
        · rfl
        · simp [Rank.entries, hcalls, hcur]
    · cases hs
  | notify p' =>
    simp only [step] at hs
    split at hs
    · next q rest hphase hto =>
      cases hs
      rw [World.notify]
      dsimp only
      split_ifs with hqp
      · apply hset _ p'
        · rfl
        · rfl
      · apply hset _ p'
        · rfl
        · rfl
    · cases hs
      apply hset s p'
      · rfl
      · rfl
    · cases hs
  | scan p' =>
    simp only [step] at hs
    split_ifs at hs with hwait
    cases hs
    rw [World.scanSet]
    dsimp only
    split_ifs with hflag
    · apply hset _ p'
      · rfl
      · simp [Rank.entries]
    · apply hset _ p'
      · rfl
      · rfl
  | recv p' q =>
    simp only [step] at hs
    split_ifs at hs with hrecv
    cases hs
    apply hset _ p'
    · rfl
    · rfl

theorem reachable_entries {calls : Fin n → List (ImageSet n)} {s : World n}
    (h : Reachable (Start calls) step s) (p : Fin n) :
    (s.rank p).entries = (calls p).flatMap ImageSet.ranks := by
  have hinv : Inv s ∧ ∀ p, (s.rank p).entries = (calls p).flatMap ImageSet.ranks := by
    apply Reachable.invariant h
    · intro s hs
      refine ⟨hs.inv, ?_⟩
      intro p
      simp [hs.rank p, Rank.entries]
    · intro m s s' ⟨hi, hent⟩ hs
      refine ⟨hi.step hs, ?_⟩
      intro p
      rw [step_entries hi hs p, hent p]
  exact hinv.2 p

/-- Waits and notifications are paired: the table and the messages in flight hold the notifications
that are not consumed, a wait is over only after its notification, and the counts are those of the
image sets in the order of the calls. -/
structure Paired (calls : Fin n → List (ImageSet n)) (s : World n) : Prop where
  balance : ∀ p q, ((s.rank p).table q : ℤ) + s.inFlight p q = s.sent q p - s.consumed p q
  passed : ∀ p q k, k ≤ s.consumed p q → k ≤ s.sent q p
  entries : ∀ p, (s.rank p).finished ++ (s.rank p).current ++
    (s.rank p).calls.flatMap ImageSet.ranks = (calls p).flatMap ImageSet.ranks
  sent : ∀ p q, s.sent p q =
    (s.rank p).finished.count q + (s.rank p).current.count q - (s.rank p).toNotify.count q
  consumed : ∀ p q, s.consumed p q = (s.rank p).finished.count q + (s.rank p).current.count q -
    (s.rank p).rankSet.count (some q)

/-- However the ranks and the messages take turns. -/
theorem syncImages_paired (calls : Fin n → List (ImageSet n)) (s : World n)
    (h : Reachable (Start calls) step s) : Paired calls s := by
  have hi := reachable_inv h
  constructor
  · intro p q
    have := hi.balance p q
    omega
  · intro p q k hk
    have := hi.balance p q
    omega
  · exact reachable_entries h
  · intro p q
    have := (hi.rank p).notified q
    omega
  · intro p q
    have := (hi.rank p).waited q
    omega

/-- The first rank waits twice for the second and once for itself, the second twice for the
first. -/
def twoCalls : Fin 2 → List (ImageSet 2) :=
  ![[⟨[1, 0, 1], by decide⟩], [⟨[0, 0], by decide⟩]]

def twoStart : World 2 :=
  ⟨fun p => ⟨twoCalls p, [], [], .idle, [], [], fun _ => 0⟩, fun _ _ => 0, fun _ _ => 0,
    fun _ _ => 0⟩

def twoMoves : List (Move 2) :=
  [.call 0, .notify 0, .notify 0, .notify 0, .notify 0, .scan 0, .call 1, .notify 1, .recv 0 1,
    .scan 0]

/-- The state in which the first rank has one wait before it. -/
def twoWorld : World 2 := (run step twoMoves twoStart).getD twoStart

theorem syncImages_paired_two : run step twoMoves twoStart = some twoWorld ∧
    twoWorld.consumed 0 1 = 1 ∧ twoWorld.sent 1 0 = 1 ∧ Paired twoCalls twoWorld := by
  have hrun : run step twoMoves twoStart = some twoWorld := rfl
  have hstart : Start twoCalls twoStart := ⟨fun _ => rfl, fun _ _ => rfl, fun _ _ => rfl,
    fun _ _ => rfl⟩
  refine ⟨hrun, by decide, by decide, ?_⟩
  exact syncImages_paired twoCalls twoWorld (reachable_of_run twoMoves hstart hrun)

end OmniCompiler.Xmp.SyncImages

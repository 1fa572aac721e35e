import OmniCompiler.Arithmetic.SmallFin
import OmniCompiler.Concurrency.Interleaving
import OmniCompiler.Memory.SortedArray

/-!
# `post` and `wait` (`xmp_post_wait_mpi.c`, `xmp_post_wait_fjrdma.c`, `xmp_post_wait_gasnet.c`)

A post is a message with a tag. A rank keeps the posts that it has received and not yet waited for
in a table, which is searched from its end and grows when it is full. The back ends differ in where
a post may arrive: only in a wait that found nothing in the table, or, with an active message, at
any time. A message may overtake every other message here, and so the results hold in particular
when the messages of one sender stay in order.
-/
namespace OmniCompiler.Xmp.PostWait

open Interleaving Memory SmallFin

variable {n : ℕ}

/-- A post of rank `node`. `serial` is its place among the calls of `node`; it tells posts with
the same tag apart and is not looked at. -/
structure Post (n : ℕ) where
  node : Fin n
  tag : ℤ
  serial : ℕ
  deriving DecidableEq

/-- `wait()`, `wait(node)` and `wait(node, tag)`. -/
inductive Wait (n : ℕ)
  | noargs
  | ofNode (node : Fin n)
  | ofNodeTag (node : Fin n) (tag : ℤ)
  deriving DecidableEq

def Wait.Matches : Wait n → Post n → Prop
  | .noargs, _ => True
  | .ofNode node, x => node = x.node
  | .ofNodeTag node tag, x => node = x.node ∧ tag = x.tag

instance (w : Wait n) (x : Post n) : Decidable (w.Matches x) :=
  match w with
  | .noargs => inferInstanceAs (Decidable True)
  | .ofNode node => inferInstanceAs (Decidable (node = x.node))
  | .ofNodeTag node tag => inferInstanceAs (Decidable (node = x.node ∧ tag = x.tag))

/-! ## The table -/

/-- `_XMP_postreq_t`. Only the first `num` of the `maxSize` entries are in use. -/
structure PostReq (n : ℕ) where
  table : ℕ → Post n
  num : ℕ
  maxSize : ℕ
  num_le : num ≤ maxSize
  initial_le : 32 ≤ maxSize

namespace PostReq

variable (t : PostReq n)

def posts : List (Post n) := (List.range t.num).map t.table

/-- `do_post` and `add_postreq`; the size is multiplied by 1.5. -/
def doPost (x : Post n) : PostReq n where
  table := Function.update t.table t.num x
  num := t.num + 1
  maxSize := if t.num = t.maxSize then t.maxSize * 3 / 2 else t.maxSize
  num_le := by
    have h₁ := t.num_le
    have h₂ := t.initial_le
    split_ifs <;> omega
  initial_le := by
    have := t.initial_le
    split_ifs <;> omega

/-- The last entry is given up. -/
def dropLast : PostReq n :=
  { t with num := t.num - 1, num_le := (Nat.sub_le _ _).trans t.num_le }

def shiftPostreq (index : ℕ) : PostReq n :=
  if index ≠ t.num - 1 then
    { t.dropLast with table := shiftDown index (t.num - 1 - index) t.table }
  else t.dropLast

/-- The loop over the entries below `i`, from the last one on. -/
def findLast (p : Post n → Prop) [DecidablePred p] : ℕ → Option ℕ
  | 0 => none
  | i + 1 => if p (t.table i) then some i else findLast p i

/-- `remove_request_node` and `remove_request`. -/
def removeRequest (w : Wait n) : Option (Post n × PostReq n) :=
  (t.findLast w.Matches t.num).map fun i => (t.table i, t.shiftPostreq i)

/-- `remove_request_noargs` of the MPI back end. -/
def removeRequestNoargs : Option (Post n × PostReq n) :=
  if 0 < t.num then some (t.table (t.num - 1), t.shiftPostreq (t.num - 1)) else none

def takeLast : Option (Post n × PostReq n) :=
  if 0 < t.num then some (t.table (t.num - 1), t.dropLast) else none

variable {t}

theorem posts_doPost (x : Post n) : (t.doPost x).posts = t.posts ++ [x] := by
  rw [posts, doPost, List.range_succ, List.map_append, posts]
  congr 1
  · apply List.map_congr_left
    intro i hi
    rw [List.mem_range] at hi
    exact Function.update_of_ne hi.ne _ _
  · simp

theorem posts_shiftPostreq {i : ℕ} (hi : i < t.num) :
    t.posts.Perm (t.table i :: (t.shiftPostreq i).posts) := by
  obtain ⟨k, hk⟩ : ∃ k, t.num = i + 1 + k := ⟨t.num - (i + 1), by omega⟩
  have hsplit : t.posts =
      (List.range i).map t.table ++ t.table i :: (List.range k).map fun j =>
        t.table (i + 1 + j) := by
    rw [posts, hk, List.range_add, List.range_succ]
    simp
  have hshift : (t.shiftPostreq i).posts =
      (List.range i).map t.table ++ (List.range k).map fun j => t.table (i + 1 + j) := by
    have hnum : (t.shiftPostreq i).num = i + k := by
      rw [shiftPostreq]
      split_ifs
      · show t.num - 1 = i + k
        omega
      · show t.num - 1 = i + k
        omega
    have htable : ∀ j < i + k, (t.shiftPostreq i).table j =
        if i ≤ j then t.table (j + 1) else t.table j := by
      intro j hj
      rw [shiftPostreq]
      split_ifs with hlast hij hij
      · show shiftDown i (t.num - 1 - i) t.table j = _
        rw [shiftDown_apply, if_pos (by omega)]
      · show shiftDown i (t.num - 1 - i) t.table j = _
        rw [shiftDown_apply, if_neg (by omega)]
      · omega
      · rfl
    rw [posts, hnum, List.range_add, List.map_append, List.map_map]
    congr 1
    · apply List.map_congr_left
      intro j hj
      rw [List.mem_range] at hj
      rw [htable j (by omega), if_neg (by omega)]
    · apply List.map_congr_left
      intro j hj
      rw [List.mem_range] at hj
      rw [Function.comp_apply, htable (i + j) (by omega), if_pos (by omega)]
      congr 1
      omega
  rw [hsplit, hshift]
  exact List.perm_middle

theorem findLast_some {p : Post n → Prop} [DecidablePred p] {k i : ℕ}
    (h : t.findLast p k = some i) : i < k ∧ p (t.table i) := by
  induction k with
  | zero => cases h
  | succ k ih =>
    rw [findLast] at h
    split_ifs at h with hp
    · obtain rfl := Option.some.inj h
      exact ⟨Nat.lt_succ_self k, hp⟩
    · obtain ⟨hlt, hpi⟩ := ih h
      exact ⟨Nat.lt_succ_of_lt hlt, hpi⟩

structure Removed (t : PostReq n) (w : Wait n) (x : Post n) (t' : PostReq n) : Prop where
  matches_post : w.Matches x
  perm : t.posts.Perm (x :: t'.posts)

theorem removeRequest_removed {w : Wait n} {x : Post n} {t' : PostReq n}
    (h : t.removeRequest w = some (x, t')) : t.Removed w x t' := by
  obtain ⟨i, hi, heq⟩ := Option.map_eq_some_iff.mp h
  cases heq
  obtain ⟨hlt, hp⟩ := findLast_some hi
  exact ⟨hp, posts_shiftPostreq hlt⟩

theorem removeRequestNoargs_removed {x : Post n} {t' : PostReq n}
    (h : t.removeRequestNoargs = some (x, t')) : t.Removed .noargs x t' := by
  rw [removeRequestNoargs] at h
  split_ifs at h with hpos
  cases h
  exact ⟨trivial, posts_shiftPostreq (by omega)⟩

theorem takeLast_removed {x : Post n} {t' : PostReq n} (h : t.takeLast = some (x, t')) :
    t.Removed .noargs x t' := by
  apply removeRequestNoargs_removed
  rw [removeRequestNoargs, shiftPostreq, ite_not, if_pos rfl]
  exact h

end PostReq

/-! ## Ranks and messages -/

inductive Call (n : ℕ)
  | post (node : Fin n) (tag : ℤ)
  | wait (w : Wait n)
  deriving DecidableEq

def Call.isWait? : Call n → Option (Wait n)
  | .post _ _ => none
  | .wait w => some w

/-- A rank with the calls that have returned and those before it. `waiting` says that it is in the
loop that receives; `consumed` are the posts that its waits have consumed, in their order. -/
structure Rank (n : ℕ) where
  done : List (Call n)
  calls : List (Call n)
  waiting : Bool
  postreq : PostReq n
  consumed : List (Post n)

structure World (n : ℕ) where
  rank : Fin n → Rank n
  inFlight : Fin n → List (Post n)

namespace World

variable (s : World n)

def set (r : Fin n) (x : Rank n) : World n := { s with rank := Function.update s.rank r x }

/-- A post of rank `r`: an entry of its own table, or a message. -/
def post (r node : Fin n) (tag : ℤ) (calls : List (Call n)) : World n :=
  let x : Post n := ⟨r, tag, (s.rank r).done.length⟩
  let rank := { s.rank r with done := (s.rank r).done ++ [.post node tag], calls := calls }
  if node = r then s.set r { rank with postreq := rank.postreq.doPost x }
  else
    let s' := { s with inFlight := Function.update s.inFlight node (s.inFlight node ++ [x]) }
    s'.set r rank

/-- The wait `w` of rank `r` returns; it has consumed `x`. -/
def finish (r : Fin n) (w : Wait n) (calls : List (Call n)) (x : Post n) (t : PostReq n)
    (messages : List (Post n)) : World n :=
  let s' := { s with inFlight := Function.update s.inFlight r messages }
  s'.set r
    { done := (s.rank r).done ++ [.wait w]
      calls := calls
      waiting := false
      postreq := t
      consumed := (s.rank r).consumed ++ [x] }

/-- Rank `r` puts the message `x` into its table. -/
def store (r : Fin n) (x : Post n) (messages : List (Post n)) (waiting : Bool) : World n :=
  let s' := { s with inFlight := Function.update s.inFlight r messages }
  s'.set r { s.rank r with waiting := waiting, postreq := (s.rank r).postreq.doPost x }

def beginReceive (r : Fin n) : World n := s.set r { s.rank r with waiting := true }

end World

/-- A rank goes on, or message `k` to it arrives. -/
inductive Move (n : ℕ)
  | run (r : Fin n)
  | arrive (r : Fin n) (k : ℕ)

section BackEnds

variable (s : World n)

def fromTable (r : Fin n) (w : Wait n) (calls : List (Call n)) (orElse : Option (World n)) :
    Option (Post n × PostReq n) → Option (World n)
  | some (x, t) => some (s.finish r w calls x t (s.inFlight r))
  | none => orElse

/-- `remove_request_noargs`, `remove_request_node` or `remove_request`. -/
def mpiRemove (t : PostReq n) : Wait n → Option (Post n × PostReq n)
  | .noargs => t.removeRequestNoargs
  | w => t.removeRequest w

/-- In the other back ends a wait without arguments gives up the last entry. -/
def lastRemove (t : PostReq n) : Wait n → Option (Post n × PostReq n)
  | .noargs => t.takeLast
  | w => t.removeRequest w

/-- `_xmp_mpi_post` and `_xmp_mpi_wait*`. A wait that finds nothing in the table receives messages
until one of them matches. -/
def mpiStep : Move n → World n → Option (World n)
  | .run r, s =>
    match (s.rank r).waiting, (s.rank r).calls with
    | false, .post node tag :: calls => some (s.post r node tag calls)
    | false, .wait w :: calls =>
      fromTable s r w calls (some (s.beginReceive r)) (mpiRemove (s.rank r).postreq w)
    | _, _ => none
  | .arrive r k, s =>
    match (s.rank r).waiting, (s.rank r).calls, (s.inFlight r)[k]? with
    | true, .wait w :: calls, some x =>
      if w.Matches x then
        some (s.finish r w calls x (s.rank r).postreq ((s.inFlight r).eraseIdx k))
      else some (s.store r x ((s.inFlight r).eraseIdx k) true)
    | _, _, _ => none

/-- `_xmp_fjrdma_post` and `_xmp_fjrdma_wait*`. A tag out of range ends the program. A wait for a
given node stores the message that it polls and searches the table anew. -/
def fjrdmaStep : Move n → World n → Option (World n)
  | .run r, s =>
    match (s.rank r).waiting, (s.rank r).calls with
    | false, .post node tag :: calls =>
      if tag < 0 ∨ tag > 14 then none else some (s.post r node tag calls)
    | false, .wait w :: calls =>
      fromTable s r w calls (some (s.beginReceive r)) (lastRemove (s.rank r).postreq w)
    | _, _ => none
  | .arrive r k, s =>
    match (s.rank r).waiting, (s.rank r).calls, (s.inFlight r)[k]? with
    | true, .wait w :: calls, some x =>
      if w = .noargs then
        some (s.finish r w calls x (s.rank r).postreq ((s.inFlight r).eraseIdx k))
      else some (s.store r x ((s.inFlight r).eraseIdx k) false)
    | _, _, _ => none

/-- `_xmp_gasnet_post`, `_xmp_gasnet_wait*` and the handler `_xmp_gasnet_postreq`. -/
def gasnetStep : Move n → World n → Option (World n)
  | .run r, s =>
    match (s.rank r).calls with
    | .post node tag :: calls => some (s.post r node tag calls)
    | .wait w :: calls => fromTable s r w calls none (lastRemove (s.rank r).postreq w)
    | [] => none
  | .arrive r k, s =>
    (s.inFlight r)[k]?.map fun x => s.store r x ((s.inFlight r).eraseIdx k) (s.rank r).waiting

end BackEnds

inductive BackEnd
  | mpi
  | fjrdma
  | gasnet

def step : BackEnd → Move n → World n → Option (World n)
  | .mpi => mpiStep
  | .fjrdma => fjrdmaStep
  | .gasnet => gasnetStep

/-- Nothing is posted yet; the tables have their initial size. -/
structure Start (calls : Fin n → List (Call n)) (s : World n) : Prop where
  done : ∀ r, (s.rank r).done = []
  calls : ∀ r, (s.rank r).calls = calls r
  waiting : ∀ r, (s.rank r).waiting = false
  num : ∀ r, (s.rank r).postreq.num = 0
  maxSize : ∀ r, (s.rank r).postreq.maxSize = 32
  consumed : ∀ r, (s.rank r).consumed = []
  inFlight : ∀ r, s.inFlight r = []

/-! ## The posts made to a rank -/

/-- The posts to `r` among the calls of `q`. -/
def postsTo (r q : Fin n) (done : List (Call n)) : List (Post n) :=
  done.zipIdx.filterMap fun c =>
    match c.1 with
    | .post node tag => if node = r then some ⟨q, tag, c.2⟩ else none
    | .wait _ => none

theorem postsTo_concat_post (r q node : Fin n) (tag : ℤ) (done : List (Call n)) :
    postsTo r q (done ++ [.post node tag]) =
      postsTo r q done ++ if node = r then [⟨q, tag, done.length⟩] else [] := by
  rw [postsTo, List.zipIdx_append, List.filterMap_append, postsTo]
  split_ifs with h
  · simp [h]
  · simp [h]

theorem postsTo_concat_wait (r q : Fin n) (w : Wait n) (done : List (Call n)) :
    postsTo r q (done ++ [.wait w]) = postsTo r q done := by
  rw [postsTo, List.zipIdx_append, List.filterMap_append, postsTo]
  simp

theorem mem_postsTo {r q : Fin n} {done : List (Call n)} {x : Post n} (h : x ∈ postsTo r q done) :
    x.node = q ∧ done[x.serial]? = some (.post r x.tag) := by
  obtain ⟨⟨c, i⟩, hmem, hx⟩ := List.mem_filterMap.mp h
  cases c with
  | post node tag =>
    dsimp only at hx
    split_ifs at hx with hnode
    cases hx
    subst hnode
    have hget := List.mem_zipIdx_iff_getElem?.mp hmem
    exact ⟨rfl, hget⟩
  | wait w => cases hx

theorem nodup_postsTo (r q : Fin n) (done : List (Call n)) : (postsTo r q done).Nodup := by
  induction done using List.reverseRecOn with
  | nil => exact List.nodup_nil
  | append_singleton done c ih =>
    cases c with
    | wait w => rwa [postsTo_concat_wait]
    | post node tag =>
      rw [postsTo_concat_post]
      split_ifs with hnode
      · rw [List.nodup_append]
        refine ⟨ih, List.nodup_singleton _, ?_⟩
        rintro x hx y hy rfl
        rw [List.mem_singleton] at hy
        have hget := (mem_postsTo hx).2
        rw [hy] at hget
        simp at hget
      · rwa [List.append_nil]

namespace World

/-- All posts made to `r` so far. -/
def posted (s : World n) (r : Fin n) : Multiset (Post n) :=
  ∑ q, (postsTo r q (s.rank q).done : Multiset (Post n))

/-- The posts to `r` that are in its table, on their way or consumed. -/
def pool (s : World n) (r : Fin n) : Multiset (Post n) :=
  (s.rank r).postreq.posts + s.inFlight r + (s.rank r).consumed

theorem nodup_posted (s : World n) (r : Fin n) : (s.posted r).Nodup := by
  rw [Multiset.nodup_iff_count_le_one]
  intro x
  rw [posted, Multiset.count_sum']
  have hzero : ∀ q ∈ Finset.univ, q ≠ x.node →
      (postsTo r q (s.rank q).done : Multiset (Post n)).count x = 0 := by
    intro q _ hq
    rw [Multiset.count_eq_zero]
    intro hx
    exact hq (mem_postsTo hx).1.symm
  rw [Finset.sum_eq_single x.node hzero (fun h => absurd (Finset.mem_univ _) h)]
  have hnodup : (postsTo r x.node (s.rank x.node).done : Multiset (Post n)).Nodup :=
    Multiset.coe_nodup.mpr (nodup_postsTo r x.node _)
  exact Multiset.nodup_iff_count_le_one.mp hnodup x

end World

/-! ## What every step keeps -/

structure Inv (calls : Fin n → List (Call n)) (s : World n) : Prop where
  balance : ∀ r, s.pool r = s.posted r
  matched : ∀ r, List.Forall₂ Wait.Matches ((s.rank r).done.filterMap Call.isWait?)
    (s.rank r).consumed
  calls : ∀ r, (s.rank r).done ++ (s.rank r).calls = calls r

namespace World

variable {s s' : World n} {r : Fin n}

theorem set_rank_self (s : World n) (r : Fin n) (x : Rank n) : (s.set r x).rank r = x := by
  simp [set]

theorem set_rank_of_ne (s : World n) {r r' : Fin n} (h : r' ≠ r) (x : Rank n) :
    (s.set r x).rank r' = s.rank r' := by
  simp [set, h]

theorem posted_add (h : ∀ q, q ≠ r → (s'.rank q).done = (s.rank q).done) (d : Fin n) :
    s'.posted d + (postsTo d r (s.rank r).done : Multiset (Post n)) =
      s.posted d + (postsTo d r (s'.rank r).done : Multiset (Post n)) := by
  have hrest : ∑ q ∈ Finset.univ.erase r, (postsTo d q (s'.rank q).done : Multiset (Post n)) =
      ∑ q ∈ Finset.univ.erase r, (postsTo d q (s.rank q).done : Multiset (Post n)) := by
    apply Finset.sum_congr rfl
    intro q hq
    rw [h q (Finset.ne_of_mem_erase hq)]
  rw [posted, posted, ← Finset.add_sum_erase _ _ (Finset.mem_univ r),
    ← Finset.add_sum_erase _ _ (Finset.mem_univ r), hrest]
  abel

theorem posted_eq (h : ∀ q, q ≠ r → (s'.rank q).done = (s.rank q).done)
    (hr : ∀ d, postsTo d r (s'.rank r).done = postsTo d r (s.rank r).done) (d : Fin n) :
    s'.posted d = s.posted d := by
  have hadd := posted_add h d
  rw [hr d] at hadd
  exact add_right_cancel hadd

end World

namespace Inv

variable {calls : Fin n → List (Call n)} {s : World n} (h : Inv calls s)

include h

theorem keep {s' : World n} {r : Fin n} (hrank : ∀ q, q ≠ r → s'.rank q = s.rank q)
    (hin : ∀ q, q ≠ r → s'.inFlight q = s.inFlight q)
    (hposts : ∀ d, postsTo d r (s'.rank r).done = postsTo d r (s.rank r).done)
    (hpool : s'.pool r = s.pool r)
    (hmatched : List.Forall₂ Wait.Matches ((s'.rank r).done.filterMap Call.isWait?)
      (s'.rank r).consumed)
    (hcalls : (s'.rank r).done ++ (s'.rank r).calls = calls r) : Inv calls s' := by
  have hposted : ∀ d, s'.posted d = s.posted d := by
    apply World.posted_eq _ hposts
    intro q hq
    rw [hrank q hq]
  constructor
  · intro q
    rw [hposted q, ← h.balance q]
    by_cases hq : q = r
    · rw [hq, hpool]
    · rw [World.pool, World.pool, hrank q hq, hin q hq]
  · intro q
    by_cases hq : q = r
    · rw [hq]
      exact hmatched
    · rw [hrank q hq]
      exact h.matched q
  · intro q
    by_cases hq : q = r
    · rw [hq]
      exact hcalls
    · rw [hrank q hq]
      exact h.calls q

theorem post {r node : Fin n} {tag : ℤ} {rest : List (Call n)}
    (hcalls : (s.rank r).calls = .post node tag :: rest) : Inv calls (s.post r node tag rest) := by
  have hpool : ∀ (t : World n) (d : Fin n), t.pool d = s.pool d + (if node = d then
      {⟨r, tag, (s.rank r).done.length⟩} else 0) → (∀ q, q ≠ r →
        (t.rank q).done = (s.rank q).done) →
      (t.rank r).done = (s.rank r).done ++ [.post node tag] → t.pool d = t.posted d := by
    intro t d ht hdone hr
    have hadd := World.posted_add hdone d
    rw [hr, postsTo_concat_post, ← Multiset.coe_add, ← add_assoc, add_right_comm] at hadd
    rw [ht, add_right_cancel hadd, h.balance d]
    split_ifs
    · rfl
    · rfl
  have hwaits : ((s.rank r).done ++ [Call.post node tag]).filterMap Call.isWait? =
      (s.rank r).done.filterMap Call.isWait? := by
    simp [Call.isWait?]
  have hdone : (s.rank r).done ++ [.post node tag] ++ rest = calls r := by
    rw [← h.calls r, hcalls, List.append_assoc]
    rfl
  rw [World.post]
  dsimp only
  split_ifs with hself
  · subst hself
    constructor
    · intro d
      apply hpool
      · by_cases hd : d = node
        · subst hd
          rw [World.pool, World.pool, World.set_rank_self, if_pos rfl]
          dsimp only
          rw [PostReq.posts_doPost, ← Multiset.coe_add, Multiset.coe_singleton]
          show _ + _ + (s.inFlight d : Multiset (Post n)) + _ = _
          abel
        · rw [World.pool, World.pool, World.set_rank_of_ne _ hd, if_neg (Ne.symm hd), add_zero]
          rfl
      · intro q hq
        rw [World.set_rank_of_ne _ hq]
      · rw [World.set_rank_self]
    · intro q
      by_cases hq : q = node
      · subst hq
        rw [World.set_rank_self]
        dsimp only
        rw [hwaits]
        exact h.matched q
      · rw [World.set_rank_of_ne _ hq]
        exact h.matched q
    · intro q
      by_cases hq : q = node
      · subst hq
        rw [World.set_rank_self]
        exact hdone
      · rw [World.set_rank_of_ne _ hq]
        exact h.calls q
  · constructor
    · intro d
      apply hpool
      · by_cases hd : d = node
        · subst hd
          rw [World.pool, World.pool, World.set_rank_of_ne _ hself, if_pos rfl]
          show _ + (Function.update s.inFlight d _ d : Multiset (Post n)) + _ = _
          rw [Function.update_self, ← Multiset.coe_add, Multiset.coe_singleton]
          abel
        · rw [if_neg (Ne.symm hd), add_zero]
          have hin : (Function.update s.inFlight node
              (s.inFlight node ++ [⟨r, tag, (s.rank r).done.length⟩])) d = s.inFlight d :=
            Function.update_of_ne hd _ _
          by_cases hdr : d = r
          · subst hdr
            rw [World.pool, World.pool, World.set_rank_self]
            show _ + (Function.update s.inFlight node _ d : Multiset (Post n)) + _ = _
            rw [hin]
          · rw [World.pool, World.pool, World.set_rank_of_ne _ hdr]
            show _ + (Function.update s.inFlight node _ d : Multiset (Post n)) + _ = _
            rw [hin]
      · intro q hq
        rw [World.set_rank_of_ne _ hq]
      · rw [World.set_rank_self]
    · intro q
      by_cases hq : q = r
      · subst hq
        rw [World.set_rank_self]
        dsimp only
        rw [hwaits]
        exact h.matched q
      · rw [World.set_rank_of_ne _ hq]
        exact h.matched q
    · intro q
      by_cases hq : q = r
      · subst hq
        rw [World.set_rank_self]
        exact hdone
      · rw [World.set_rank_of_ne _ hq]
        exact h.calls q

theorem finish {r : Fin n} {w : Wait n} {rest : List (Call n)} {x : Post n} {t : PostReq n}
    {messages : List (Post n)} (hcalls : (s.rank r).calls = .wait w :: rest) (hx : w.Matches x)
    (hpool : ((s.rank r).postreq.posts + s.inFlight r : Multiset (Post n)) =
      t.posts + messages + {x}) : Inv calls (s.finish r w rest x t messages) := by
  apply h.keep (r := r)
  · intro q hq
    exact World.set_rank_of_ne _ hq _
  · intro q hq
    exact Function.update_of_ne hq _ _
  · intro d
    rw [World.finish, World.set_rank_self]
    exact postsTo_concat_wait d r w _
  · rw [World.pool, World.pool, World.finish, World.set_rank_self, hpool]
    show _ + (Function.update s.inFlight r messages r : Multiset (Post n)) + _ = _
    rw [Function.update_self]
    dsimp only
    rw [← Multiset.coe_add, Multiset.coe_singleton]
    abel
  · rw [World.finish, World.set_rank_self]
    dsimp only
    rw [List.filterMap_append]
    exact List.rel_append (h.matched r) (List.Forall₂.cons hx List.Forall₂.nil)
  · rw [World.finish, World.set_rank_self, ← h.calls r, hcalls, List.append_assoc]
    rfl

theorem store {r : Fin n} {x : Post n} {messages : List (Post n)} (waiting : Bool)
    (hmessages : (s.inFlight r).Perm (x :: messages)) :
    Inv calls (s.store r x messages waiting) := by
  apply h.keep (r := r)
  · intro q hq
    exact World.set_rank_of_ne _ hq _
  · intro q hq
    exact Function.update_of_ne hq _ _
  · intro d
    rw [World.store, World.set_rank_self]
  · rw [World.pool, World.pool, World.store, World.set_rank_self, Multiset.coe_eq_coe.mpr hmessages]
    show _ + (Function.update s.inFlight r messages r : Multiset (Post n)) + _ = _
    rw [Function.update_self]
    dsimp only
    rw [PostReq.posts_doPost, ← Multiset.coe_add, Multiset.coe_singleton, ← Multiset.cons_coe,
      ← Multiset.singleton_add]
    abel
  · rw [World.store, World.set_rank_self]
    exact h.matched r
  · rw [World.store, World.set_rank_self]
    exact h.calls r

theorem beginReceive (r : Fin n) : Inv calls (s.beginReceive r) := by
  apply h.keep (r := r)
  · intro q hq
    exact World.set_rank_of_ne _ hq _
  · intro q _
    rfl
  · intro d
    rw [World.beginReceive, World.set_rank_self]
  · rw [World.pool, World.pool, World.beginReceive, World.set_rank_self]
    rfl
  · rw [World.beginReceive, World.set_rank_self]
    exact h.matched r
  · rw [World.beginReceive, World.set_rank_self]
    exact h.calls r

theorem fromTable {s' : World n} {r : Fin n} {w : Wait n} {rest : List (Call n)}
    {orElse : Option (World n)} {found : Option (Post n × PostReq n)}
    (hcalls : (s.rank r).calls = .wait w :: rest)
    (hfound : ∀ x t, found = some (x, t) → (s.rank r).postreq.Removed w x t)
    (helse : ∀ t, orElse = some t → Inv calls t)
    (hs : PostWait.fromTable s r w rest orElse found = some s') : Inv calls s' := by
  cases found with
  | none => exact helse s' hs
  | some p =>
    obtain ⟨x, t⟩ := p
    obtain rfl := Option.some.inj hs
    obtain ⟨hx, hperm⟩ := hfound x t rfl
    apply h.finish hcalls hx
    rw [Multiset.coe_eq_coe.mpr hperm, ← Multiset.cons_coe, ← Multiset.singleton_add]
    abel

end Inv

theorem mpiRemove_removed {t t' : PostReq n} {w : Wait n} {x : Post n}
    (h : mpiRemove t w = some (x, t')) : t.Removed w x t' := by
  cases w with
  | noargs => exact PostReq.removeRequestNoargs_removed h
  | ofNode node => exact PostReq.removeRequest_removed h
  | ofNodeTag node tag => exact PostReq.removeRequest_removed h

theorem lastRemove_removed {t t' : PostReq n} {w : Wait n} {x : Post n}
    (h : lastRemove t w = some (x, t')) : t.Removed w x t' := by
  cases w with
  | noargs => exact PostReq.takeLast_removed h
  | ofNode node => exact PostReq.removeRequest_removed h
  | ofNodeTag node tag => exact PostReq.removeRequest_removed h

theorem perm_eraseIdx {l : List (Post n)} {k : ℕ} {x : Post n} (h : l[k]? = some x) :
    l.Perm (x :: l.eraseIdx k) := by
  obtain ⟨hk, rfl⟩ := List.getElem?_eq_some_iff.mp h
  exact (List.getElem_cons_eraseIdx_perm hk).symm

section Steps

variable {calls : Fin n → List (Call n)} {s s' : World n} {m : Move n}

theorem Inv.finishMessage (h : Inv calls s) {r : Fin n} {w : Wait n} {rest : List (Call n)} {k : ℕ}
    {x : Post n} (hcalls : (s.rank r).calls = .wait w :: rest) (hk : (s.inFlight r)[k]? = some x)
    (hx : w.Matches x) :
    Inv calls (s.finish r w rest x (s.rank r).postreq ((s.inFlight r).eraseIdx k)) := by
  apply h.finish hcalls hx
  rw [Multiset.coe_eq_coe.mpr (perm_eraseIdx hk), ← Multiset.cons_coe, ← Multiset.singleton_add]
  abel

theorem Inv.mpiStep (h : Inv calls s) (hs : mpiStep m s = some s') : Inv calls s' := by
  cases m with
  | run r =>
    simp only [PostWait.mpiStep] at hs
    split at hs
    · next node tag rest _ hcalls =>
      cases hs
      exact h.post hcalls
    · next w rest _ hcalls =>
      apply h.fromTable hcalls _ _ hs
      · intro x t hfound
        exact mpiRemove_removed hfound
      · rintro t ⟨⟩
        exact h.beginReceive r
    · cases hs
  | arrive r k =>
    simp only [PostWait.mpiStep] at hs
    split at hs
    · next w rest x _ hcalls hk =>
      split_ifs at hs with hx
      · cases hs
        exact h.finishMessage hcalls hk hx
      · cases hs
        exact h.store true (perm_eraseIdx hk)
    · cases hs

theorem Inv.fjrdmaStep (h : Inv calls s) (hs : fjrdmaStep m s = some s') : Inv calls s' := by
  cases m with
  | run r =>
    simp only [PostWait.fjrdmaStep] at hs
    split at hs
    · next node tag rest _ hcalls =>
      split_ifs at hs
      cases hs
      exact h.post hcalls
    · next w rest _ hcalls =>
      apply h.fromTable hcalls _ _ hs
      · intro x t hfound
        exact lastRemove_removed hfound
      · rintro t ⟨⟩
        exact h.beginReceive r
    · cases hs
  | arrive r k =>
    simp only [PostWait.fjrdmaStep] at hs
    split at hs
    · next w rest x _ hcalls hk =>
      split_ifs at hs with hw
      · cases hs
        subst hw
        exact h.finishMessage hcalls hk trivial
      · cases hs
        exact h.store false (perm_eraseIdx hk)
    · cases hs

theorem Inv.gasnetStep (h : Inv calls s) (hs : gasnetStep m s = some s') : Inv calls s' := by
  cases m with
  | run r =>
    simp only [PostWait.gasnetStep] at hs
    split at hs
    · next node tag rest hcalls =>
      cases hs
      exact h.post hcalls
    · next w rest hcalls =>
      apply h.fromTable hcalls _ _ hs
      · intro x t hfound
        exact lastRemove_removed hfound
      · intro t ht
        cases ht
    · cases hs
  | arrive r k =>
    obtain ⟨x, hk, rfl⟩ := Option.map_eq_some_iff.mp hs
    exact h.store _ (perm_eraseIdx hk)

theorem Inv.step {B : BackEnd} (h : Inv calls s) (hs : step B m s = some s') : Inv calls s' := by
  cases B with
  | mpi => exact h.mpiStep hs
  | fjrdma => exact h.fjrdmaStep hs
  | gasnet => exact h.gasnetStep hs

end Steps

theorem Start.inv {calls : Fin n → List (Call n)} {s : World n} (h : Start calls s) :
    Inv calls s := by
  constructor
  · intro r
    have hposted : s.posted r = 0 := by
      apply Finset.sum_eq_zero
      intro q _
      rw [h.done q]
      rfl
    rw [hposted, World.pool, PostReq.posts, h.num, h.inFlight, h.consumed]
    rfl
  · intro r
    rw [h.done, h.consumed]
    exact List.Forall₂.nil
  · intro r
    rw [h.done, h.calls, List.nil_append]

theorem reachable_inv {B : BackEnd} {calls : Fin n → List (Call n)} {s : World n}
    (h : Reachable (Start calls) (step B) s) : Inv calls s := by
  apply Reachable.invariant h
  · intro s hs
    exact hs.inv
  · intro m s s' hi hs
    exact hi.step hs

/-- The waits of a rank that have returned have consumed posts to the rank that match them, one each
and no post twice. The posts in the table and on their way are those that have been made and are not
consumed; and the calls are made in their order. -/
structure Safe (calls : Fin n → List (Call n)) (s : World n) : Prop where
  matched : ∀ r, List.Forall₂ Wait.Matches ((s.rank r).done.filterMap Call.isWait?)
    (s.rank r).consumed
  addressed : ∀ r, ∀ x ∈ (s.rank r).consumed,
    (s.rank x.node).done[x.serial]? = some (.post r x.tag)
  once : ∀ r, (s.rank r).consumed.Nodup
  balance : ∀ r, ((s.rank r).postreq.posts + s.inFlight r : Multiset (Post n)) =
    s.posted r - (s.rank r).consumed
  calls : ∀ r, (s.rank r).done ++ (s.rank r).calls = calls r

/-- With every back end, however the ranks and the messages take turns. -/
theorem postWait_safe (B : BackEnd) (calls : Fin n → List (Call n)) (s : World n)
    (h : Reachable (Start calls) (step B) s) : Safe calls s := by
  have hi := reachable_inv h
  have hle : ∀ r, ((s.rank r).consumed : Multiset (Post n)) ≤ s.posted r := by
    intro r
    rw [← hi.balance r]
    exact Multiset.le_add_left _ _
  constructor
  · exact hi.matched
  · intro r x hx
    have hmem : x ∈ s.posted r := Multiset.mem_of_le (hle r) (Multiset.mem_coe.mpr hx)
    obtain ⟨q, -, hq⟩ := Multiset.mem_sum.mp hmem
    obtain ⟨rfl, hget⟩ := mem_postsTo (Multiset.mem_coe.mp hq)
    exact hget
  · intro r
    exact Multiset.coe_nodup.mp (Multiset.nodup_of_le (hle r) (s.nodup_posted r))
  · intro r
    rw [← hi.balance r, World.pool, add_tsub_cancel_right]
  · exact hi.calls

def emptyPostReq : PostReq 2 := ⟨fun _ => ⟨0, 0, 0⟩, 0, 32, by decide, le_rfl⟩

/-- The second rank waits for the later one of two posts first. -/
def twoCalls : Fin 2 → List (Call 2) :=
  ![[.post 1 3, .post 1 5], [.wait (.ofNodeTag 0 5), .wait .noargs]]

def twoStart : World 2 := ⟨fun r => ⟨[], twoCalls r, false, emptyPostReq, []⟩, fun _ => []⟩

def twoMoves : List (Move 2) := [.run 0, .run 0, .run 1, .arrive 1 0, .arrive 1 0, .run 1]

def twoWorld : World 2 := (run (step .mpi) twoMoves twoStart).getD twoStart

theorem postWait_safe_two : run (step .mpi) twoMoves twoStart = some twoWorld ∧
    (twoWorld.rank 1).consumed = [⟨0, 5, 1⟩, ⟨0, 3, 0⟩] ∧ Safe twoCalls twoWorld := by
  have hrun : run (step .mpi) twoMoves twoStart = some twoWorld := rfl
  have hstart : Start twoCalls twoStart := ⟨fun _ => rfl, fun _ => rfl, fun _ => rfl,
    fun _ => rfl, fun _ => rfl, fun _ => rfl, fun _ => rfl⟩
  refine ⟨hrun, by decide, ?_⟩
  exact postWait_safe .mpi twoCalls twoWorld (reachable_of_run twoMoves hstart hrun)

end OmniCompiler.Xmp.PostWait

import Mathlib.Data.Nat.Count
import OmniCompiler.Xmp.NodesCoord

/-!
# The node of `post` and `wait` (`xmp_post_wait.c`)

The node is named by its coordinates in a node array. What goes to the communication layer is the
number of the coordinates in this array, and the layer takes it as a rank in the world.
-/
namespace OmniCompiler.Xmp

open MixedRadix

/-- A call of the communication layer, such as `_xmp_mpi_post`, `_xmp_mpi_wait` and
`_xmp_mpi_wait_node`. -/
inductive PostWaitCall
  | post (node tag : ℤ)
  | wait (node tag : ℤ)
  | waitNode (node : ℤ)
  deriving DecidableEq

namespace NodesDesc

variable (n : NodesDesc)

/-- `info[i].size`. -/
def infoSize (i : ℕ) : ℤ := (n.sizes.getD i 1 : ℕ)

/-! ## `node_num` -/

def nodeNum1 (num1 : ℕ) : ℤ := num1 - 1

def nodeNum2 (num1 num2 : ℕ) : ℤ := num1 - 1 + (num2 - 1) * n.infoSize 0

def nodeNum3 (num1 num2 num3 : ℕ) : ℤ :=
  num1 - 1 + (num2 - 1) * n.infoSize 0 + (num3 - 1) * n.infoSize 0 * n.infoSize 1

def nodeNum4 (num1 num2 num3 num4 : ℕ) : ℤ :=
  num1 - 1 + (num2 - 1) * n.infoSize 0 + (num3 - 1) * n.infoSize 0 * n.infoSize 1 +
    (num4 - 1) * n.infoSize 0 * n.infoSize 1 * n.infoSize 2

def nodeNum5 (num1 num2 num3 num4 num5 : ℕ) : ℤ :=
  num1 - 1 + (num2 - 1) * n.infoSize 0 + (num3 - 1) * n.infoSize 0 * n.infoSize 1 +
    (num4 - 1) * n.infoSize 0 * n.infoSize 1 * n.infoSize 2 +
    (num5 - 1) * n.infoSize 0 * n.infoSize 1 * n.infoSize 2 * n.infoSize 3

def nodeNum6 (num1 num2 num3 num4 num5 num6 : ℕ) : ℤ :=
  num1 - 1 + (num2 - 1) * n.infoSize 0 + (num3 - 1) * n.infoSize 0 * n.infoSize 1 +
    (num4 - 1) * n.infoSize 0 * n.infoSize 1 * n.infoSize 2 +
    (num5 - 1) * n.infoSize 0 * n.infoSize 1 * n.infoSize 2 * n.infoSize 3 +
    (num6 - 1) * n.infoSize 0 * n.infoSize 1 * n.infoSize 2 * n.infoSize 3 * n.infoSize 4

def nodeNum7 (num1 num2 num3 num4 num5 num6 num7 : ℕ) : ℤ :=
  num1 - 1 + (num2 - 1) * n.infoSize 0 + (num3 - 1) * n.infoSize 0 * n.infoSize 1 +
    (num4 - 1) * n.infoSize 0 * n.infoSize 1 * n.infoSize 2 +
    (num5 - 1) * n.infoSize 0 * n.infoSize 1 * n.infoSize 2 * n.infoSize 3 +
    (num6 - 1) * n.infoSize 0 * n.infoSize 1 * n.infoSize 2 * n.infoSize 3 * n.infoSize 4 +
    (num7 - 1) * n.infoSize 0 * n.infoSize 1 * n.infoSize 2 * n.infoSize 3 * n.infoSize 4 *
      n.infoSize 5

/-! ## `_XMP_post_k`, `_XMP_wait_k` and `_XMP_wait_node_k` -/

def post1 (a : ℕ) (tag : ℤ) : PostWaitCall := .post (nodeNum1 a) tag

def post2 (a b : ℕ) (tag : ℤ) : PostWaitCall := .post (n.nodeNum2 a b) tag

def post3 (a b c : ℕ) (tag : ℤ) : PostWaitCall := .post (n.nodeNum3 a b c) tag

def post4 (a b c d : ℕ) (tag : ℤ) : PostWaitCall := .post (n.nodeNum4 a b c d) tag

def post5 (a b c d e : ℕ) (tag : ℤ) : PostWaitCall := .post (n.nodeNum5 a b c d e) tag

def post6 (a b c d e f : ℕ) (tag : ℤ) : PostWaitCall := .post (n.nodeNum6 a b c d e f) tag

def post7 (a b c d e f g : ℕ) (tag : ℤ) : PostWaitCall := .post (n.nodeNum7 a b c d e f g) tag

def wait1 (a : ℕ) (tag : ℤ) : PostWaitCall := .wait (nodeNum1 a) tag

def wait2 (a b : ℕ) (tag : ℤ) : PostWaitCall := .wait (n.nodeNum2 a b) tag

def wait3 (a b c : ℕ) (tag : ℤ) : PostWaitCall := .wait (n.nodeNum3 a b c) tag

def wait4 (a b c d : ℕ) (tag : ℤ) : PostWaitCall := .wait (n.nodeNum4 a b c d) tag

def wait5 (a b c d e : ℕ) (tag : ℤ) : PostWaitCall := .wait (n.nodeNum5 a b c d e) tag

def wait6 (a b c d e f : ℕ) (tag : ℤ) : PostWaitCall := .wait (n.nodeNum6 a b c d e f) tag

def wait7 (a b c d e f g : ℕ) (tag : ℤ) : PostWaitCall := .wait (n.nodeNum7 a b c d e f g) tag

def waitNode1 (a : ℕ) : PostWaitCall := .waitNode (nodeNum1 a)

def waitNode2 (a b : ℕ) : PostWaitCall := .waitNode (n.nodeNum2 a b)

def waitNode3 (a b c : ℕ) : PostWaitCall := .waitNode (n.nodeNum3 a b c)

def waitNode4 (a b c d : ℕ) : PostWaitCall := .waitNode (n.nodeNum4 a b c d)

def waitNode5 (a b c d e : ℕ) : PostWaitCall := .waitNode (n.nodeNum5 a b c d e)

def waitNode6 (a b c d e f : ℕ) : PostWaitCall := .waitNode (n.nodeNum6 a b c d e f)

def waitNode7 (a b c d e f g : ℕ) : PostWaitCall := .waitNode (n.nodeNum7 a b c d e f g)

/-- The function for as many coordinates as there are. -/
def post (tag : ℤ) : List ℕ → Option PostWaitCall
  | [a] => some (post1 a tag)
  | [a, b] => some (n.post2 a b tag)
  | [a, b, c] => some (n.post3 a b c tag)
  | [a, b, c, d] => some (n.post4 a b c d tag)
  | [a, b, c, d, e] => some (n.post5 a b c d e tag)
  | [a, b, c, d, e, f] => some (n.post6 a b c d e f tag)
  | [a, b, c, d, e, f, g] => some (n.post7 a b c d e f g tag)
  | _ => none

def wait (tag : ℤ) : List ℕ → Option PostWaitCall
  | [a] => some (wait1 a tag)
  | [a, b] => some (n.wait2 a b tag)
  | [a, b, c] => some (n.wait3 a b c tag)
  | [a, b, c, d] => some (n.wait4 a b c d tag)
  | [a, b, c, d, e] => some (n.wait5 a b c d e tag)
  | [a, b, c, d, e, f] => some (n.wait6 a b c d e f tag)
  | [a, b, c, d, e, f, g] => some (n.wait7 a b c d e f g tag)
  | _ => none

def waitNode : List ℕ → Option PostWaitCall
  | [a] => some (waitNode1 a)
  | [a, b] => some (n.waitNode2 a b)
  | [a, b, c] => some (n.waitNode3 a b c)
  | [a, b, c, d] => some (n.waitNode4 a b c d)
  | [a, b, c, d, e] => some (n.waitNode5 a b c d e)
  | [a, b, c, d, e, f] => some (n.waitNode6 a b c d e f)
  | [a, b, c, d, e, f, g] => some (n.waitNode7 a b c d e f g)
  | _ => none

/-- All three functions name the node `rank`. -/
def CallsWith (nums : List ℕ) (rank : ℕ) : Prop :=
  (∀ tag, n.post tag nums = some (.post rank tag)) ∧
    (∀ tag, n.wait tag nums = some (.wait rank tag)) ∧ n.waitNode nums = some (.waitNode rank)

end NodesDesc

namespace NodesDecl

/-- The processes that the process `me` shares the communicator of the node array with. -/
def inGroup (me : ℕ) : NodesDecl → ℕ → Bool
  | .global _ sizes, q => q < sizes.prod
  | .named _ p refs _, q => p.inGroup me q &&
      decide (p.commRank q ∈ p.desc.namedComm (validRefs p.sizes refs) (p.commRank me))

/-- Coordinates inside the node array, counted from one. -/
def Inside (d : NodesDecl) (nums : List ℕ) : Prop :=
  List.Forall₂ (fun num size => 1 ≤ num ∧ num ≤ size) nums d.sizes

/-- The node is the process with the given coordinates. -/
def NamesNode (d : NodesDecl) (me : ℕ) (nums : List ℕ) : Prop :=
  ∃ rank, d.desc.CallsWith nums rank ∧ d.inGroup me rank = true ∧
    d.coord rank = nums.map fun num => num - 1

/-- A post of `p` that names the coordinates of `q` goes to `q`, and a wait of `q` that names the
coordinates of `p` waits for `p`. -/
def PostMatchesWait (d : NodesDecl) (p q : ℕ) : Prop :=
  d.desc.CallsWith ((d.coord q).map fun c => c + 1) q ∧
    d.desc.CallsWith ((d.coord p).map fun c => c + 1) p

end NodesDecl

/-! ## Numbers -/

namespace NodesDesc

variable {n : NodesDesc}

/-- `node_num` of the functions for as many coordinates as there are. -/
def nodeNum (n : NodesDesc) : List ℕ → ℤ
  | [a] => nodeNum1 a
  | [a, b] => n.nodeNum2 a b
  | [a, b, c] => n.nodeNum3 a b c
  | [a, b, c, d] => n.nodeNum4 a b c d
  | [a, b, c, d, e] => n.nodeNum5 a b c d e
  | [a, b, c, d, e, f] => n.nodeNum6 a b c d e f
  | [a, b, c, d, e, f, g] => n.nodeNum7 a b c d e f g
  | _ => 0

theorem callsWith_iff_nodeNum {nums : List ℕ} (hone : 1 ≤ nums.length) (hseven : nums.length ≤ 7)
    (rank : ℕ) : n.CallsWith nums rank ↔ n.nodeNum nums = rank := by
  match nums with
  | [_] | [_, _] | [_, _, _] | [_, _, _, _] | [_, _, _, _, _] | [_, _, _, _, _, _]
  | [_, _, _, _, _, _, _] =>
    simp [CallsWith, post, wait, waitNode, nodeNum, post1, post2, post3, post4, post5, post6, post7,
      wait1, wait2, wait3, wait4, wait5, wait6, wait7, waitNode1, waitNode2, waitNode3, waitNode4,
      waitNode5, waitNode6, waitNode7]
  | [] => exact absurd hone (by decide)
  | _ :: _ :: _ :: _ :: _ :: _ :: _ :: _ :: _ =>
    simp only [List.length_cons] at hseven
    omega

theorem nodeNum_eq {cs : List ℕ} (hlength : n.sizes.length = cs.length) (hseven : cs.length ≤ 7) :
    n.nodeNum (cs.map fun c => c + 1) = value 1 n.sizes cs := by
  obtain ⟨addr, attr, sizes⟩ := n
  match cs, sizes with
  | [], [] => rfl
  | [_], [_] | [_, _], [_, _] | [_, _, _], [_, _, _] | [_, _, _, _], [_, _, _, _]
  | [_, _, _, _, _], [_, _, _, _, _] | [_, _, _, _, _, _], [_, _, _, _, _, _]
  | [_, _, _, _, _, _, _], [_, _, _, _, _, _, _] =>
    simp [nodeNum, nodeNum1, nodeNum2, nodeNum3, nodeNum4, nodeNum5, nodeNum6, nodeNum7, infoSize,
      value, mul_assoc, add_assoc]
  | _ :: _ :: _ :: _ :: _ :: _ :: _ :: _ :: _, _ =>
    simp only [List.length_cons] at hseven
    omega

end NodesDesc

/-! ## Groups -/

theorem idxOf_filter_range (c : ℕ → Bool) {n x : ℕ} (hx : x < n) (hc : c x = true) :
    ((List.range n).filter c).idxOf x = Nat.count (fun y => c y = true) x := by
  obtain ⟨k, rfl⟩ : ∃ k, n = x + (k + 1) := ⟨n - x - 1, by omega⟩
  have hnot : x ∉ (List.range x).filter c := by simp
  have hrest : (List.range (k + 1)).map (x + ·) =
      x :: (List.range k).map (fun j => x + (j + 1)) := by
    rw [List.range_succ_eq_map, List.map_cons, List.map_map]
    rfl
  rw [List.range_add, List.filter_append, List.idxOf_append_of_notMem hnot, hrest,
    List.filter_cons_of_pos hc, List.idxOf_cons_self, add_zero, Nat.count,
    List.countP_eq_length_filter]
  simp

theorem count_count (p c : ℕ → Prop) [DecidablePred p] [DecidablePred c] (x : ℕ) :
    Nat.count c (Nat.count p x) = Nat.count (fun y => p y ∧ c (Nat.count p y)) x := by
  induction x with
  | zero => simp
  | succ x ih =>
    rw [Nat.count_succ, Nat.count_succ, ← ih]
    by_cases hp : p x
    · rw [if_pos hp, Nat.count_succ]
      simp [hp]
    · simp [hp]

namespace NodesDecl

variable {worldSize me : ℕ} {d : NodesDecl}

section Named

variable {a : ℕ} {p : NodesDecl} {refs : List NodesRef} {sizes : List ℕ}

theorem namedComm_me (h : (NodesDecl.named a p refs sizes).WellBuilt worldSize)
    (hme : me < worldSize) (hmember : (NodesDecl.named a p refs sizes).isMember me = true) :
    p.commRank me < p.desc.commSize ∧ p.isMember me = true ∧
    p.desc.namedComm (validRefs p.sizes refs) (p.commRank me) =
      p.desc.splitGroup (p.desc.namedColor (validRefs p.sizes refs)) (p.commRank me) := by
  obtain ⟨hn, -⟩ := normal_validRefs h
  obtain ⟨hp, -, -, -, hcomm⟩ := h
  rw [isMember, Bool.and_eq_true] at hmember
  have hrank := commRank_lt hp hme hmember.1
  exact ⟨hrank, hmember.1, NodesDesc.namedComm_eq hn hrank hmember.2 (hcomm _ hrank hmember.2)⟩

theorem inGroup_named_iff (h : (NodesDecl.named a p refs sizes).WellBuilt worldSize)
    (hme : me < worldSize) (hmember : (NodesDecl.named a p refs sizes).isMember me = true) (q : ℕ) :
    (NodesDecl.named a p refs sizes).inGroup me q = true ↔ p.inGroup me q = true ∧
      p.commRank q < p.desc.commSize ∧
        p.desc.namedColor (validRefs p.sizes refs) (p.commRank q) =
          p.desc.namedColor (validRefs p.sizes refs) (p.commRank me) := by
  rw [inGroup, (namedComm_me h hme hmember).2.2, NodesDesc.splitGroup]
  simp

end Named

theorem isMember_of_inGroup (h : d.WellBuilt worldSize) (hme : me < worldSize)
    (hmember : d.isMember me = true) {q : ℕ} (hq : d.inGroup me q = true) :
    q < worldSize ∧ d.isMember q = true := by
  induction d with
  | global a sizes =>
    have hsize : sizes.prod = worldSize := h
    rw [inGroup, hsize, decide_eq_true_eq] at hq
    exact ⟨hq, rfl⟩
  | named a p refs sizes ih =>
    obtain ⟨hn, -⟩ := normal_validRefs h
    obtain ⟨hrank, hp, -⟩ := namedComm_me h hme hmember
    obtain ⟨hparent, hlt, hcolor⟩ := (inGroup_named_iff h hme hmember q).mp hq
    obtain ⟨hworld, hpq⟩ := ih h.1 hp hparent
    rw [isMember, Bool.and_eq_true] at hmember
    have hagree := (NodesDesc.namedColor_eq_iff hn hlt hrank hmember.2).mp hcolor
    exact ⟨hworld, by rw [isMember, hpq, hagree.1]; rfl⟩

theorem namedComm_of_inGroup {a : ℕ} {p : NodesDecl} {refs : List NodesRef} {sizes : List ℕ}
    (h : (NodesDecl.named a p refs sizes).WellBuilt worldSize) (hme : me < worldSize)
    (hmember : (NodesDecl.named a p refs sizes).isMember me = true) {q : ℕ}
    (hq : (NodesDecl.named a p refs sizes).inGroup me q = true) :
    p.desc.namedComm (validRefs p.sizes refs) (p.commRank q) =
      (List.range p.desc.commSize).filter fun x =>
        p.desc.namedColor (validRefs p.sizes refs) x =
          p.desc.namedColor (validRefs p.sizes refs) (p.commRank me) := by
  obtain ⟨hworld, hmemberq⟩ := isMember_of_inGroup h hme hmember hq
  rw [(namedComm_me h hworld hmemberq).2.2, NodesDesc.splitGroup,
    ((inGroup_named_iff h hme hmember q).mp hq).2.2]

/-- The rank of a process is the number of processes of its group that have a lower world rank. -/
theorem commRank_eq_count (h : d.WellBuilt worldSize) (hme : me < worldSize)
    (hmember : d.isMember me = true) {q : ℕ} (hq : d.inGroup me q = true) :
    d.commRank q = Nat.count (fun r => d.inGroup me r = true) q := by
  induction d generalizing q with
  | global a sizes =>
    rw [inGroup, decide_eq_true_eq] at hq
    refine (Nat.count_iff_forall.mpr ?_).symm
    intro r hr
    rw [inGroup, decide_eq_true_eq]
    exact hr.trans hq
  | named a p refs sizes ih =>
    obtain ⟨hparent, hlt, hcolor⟩ := (inGroup_named_iff h hme hmember q).mp hq
    have hp := (namedComm_me h hme hmember).2.1
    rw [commRank, namedComm_of_inGroup h hme hmember hq,
      idxOf_filter_range _ hlt (by simpa using hcolor), ih h.1 hp hparent, count_count]
    have hsame : ∀ r, (p.inGroup me r = true ∧
        decide (p.desc.namedColor (validRefs p.sizes refs)
          (Nat.count (fun r => p.inGroup me r = true) r) =
            p.desc.namedColor (validRefs p.sizes refs) (p.commRank me)) = true) ↔
        (NodesDecl.named a p refs sizes).inGroup me r = true := by
      intro r
      rw [inGroup_named_iff h hme hmember, decide_eq_true_eq]
      apply and_congr_right
      intro hr
      obtain ⟨hworld, hmemberr⟩ := isMember_of_inGroup h.1 hme hp hr
      rw [ih h.1 hp hr, ← ih h.1 hp hr]
      exact (and_iff_right (commRank_lt h.1 hworld hmemberr)).symm
    exact List.countP_congr fun r _ => by simpa only [decide_eq_true_eq] using hsame r

theorem exists_commRank (h : d.WellBuilt worldSize) (hme : me < worldSize)
    (hmember : d.isMember me = true) {i : ℕ} (hi : i < d.sizes.prod) :
    ∃ q, d.inGroup me q = true ∧ d.commRank q = i := by
  induction d generalizing i with
  | global a sizes => exact ⟨i, by rwa [inGroup, decide_eq_true_eq], rfl⟩
  | named a p refs sizes ih =>
    obtain ⟨hrank, hp, hcomm⟩ := namedComm_me h hme hmember
    have hlength : (p.desc.splitGroup (p.desc.namedColor (validRefs p.sizes refs))
        (p.commRank me)).length = sizes.prod := by
      obtain ⟨-, -, -, hsize, hall⟩ := h
      rw [isMember, Bool.and_eq_true] at hmember
      have hlen := hall _ hrank hmember.2
      rw [hcomm, ← hsize] at hlen
      exact_mod_cast hlen
    have hi' := hlength.symm ▸ hi
    have hmem := List.mem_filter.mp (List.getElem_mem hi')
    rw [List.mem_range, decide_eq_true_eq] at hmem
    obtain ⟨q, hq, hx⟩ := ih h.1 hp hmem.1
    have hgroup : (NodesDecl.named a p refs sizes).inGroup me q = true := by
      rw [inGroup_named_iff h hme hmember, hx]
      exact ⟨hq, hmem⟩
    refine ⟨q, hgroup, ?_⟩
    rw [commRank, namedComm_of_inGroup h hme hmember hgroup, hx]
    exact (List.nodup_range.filter _).idxOf_getElem i hi'

/-- The rank of a process is its world rank if and only if no process outside the group comes before
it in the world. -/
theorem commRank_eq_self_iff (h : d.WellBuilt worldSize) (hme : me < worldSize)
    (hmember : d.isMember me = true) {q : ℕ} (hq : d.inGroup me q = true) :
    d.commRank q = q ↔ ∀ r < q, d.inGroup me r = true := by
  rw [commRank_eq_count h hme hmember hq, Nat.count_iff_forall]

theorem value_coord (h : d.WellBuilt worldSize) (hme : me < worldSize)
    (hmember : d.isMember me = true) {q : ℕ} (hq : d.inGroup me q = true) :
    value 1 d.sizes (d.coord q) = d.commRank q := by
  obtain ⟨hworld, hmemberq⟩ := isMember_of_inGroup h hme hmember hq
  exact value_residues (commRank_lt h hworld hmemberq)

/-- The functions are called right for the coordinates of a process if and only if its rank is its
world rank. -/
theorem callsWith_coord_iff (h : d.WellBuilt worldSize) (hone : 1 ≤ d.sizes.length)
    (hseven : d.sizes.length ≤ 7) (hme : me < worldSize) (hmember : d.isMember me = true) {q : ℕ}
    (hq : d.inGroup me q = true) :
    d.desc.CallsWith ((d.coord q).map fun c => c + 1) q ↔ ∀ r < q, d.inGroup me r = true := by
  have hlength := length_coord d q
  have hnum : d.desc.nodeNum ((d.coord q).map fun c => c + 1) = value 1 d.desc.sizes (d.coord q) :=
    NodesDesc.nodeNum_eq hlength.symm (hlength ▸ hseven)
  rw [NodesDesc.callsWith_iff_nodeNum (by simpa [hlength]) (by simpa [hlength]), hnum, Nat.cast_inj,
    ← commRank_eq_self_iff h hme hmember hq]
  exact Eq.congr_left (value_coord h hme hmember hq)

theorem eq_of_coord_eq (h : d.WellBuilt worldSize) (hme : me < worldSize)
    (hmember : d.isMember me = true) {q r : ℕ} (hq : d.inGroup me q = true)
    (hr : d.inGroup me r = true) (hcoord : d.coord q = d.coord r) : q = r := by
  have hrank : d.commRank q = d.commRank r := by
    rw [← value_coord h hme hmember hq, hcoord, value_coord h hme hmember hr]
  rw [commRank_eq_count h hme hmember hq, commRank_eq_count h hme hmember hr] at hrank
  exact Nat.count_injective hq hr hrank

theorem Inside.map_coords {nums : List ℕ} (h : d.Inside nums) :
    ((nums.map fun num => num - 1).map fun c => c + 1) = nums := by
  unfold Inside at h
  generalize d.sizes = sizes at h
  induction h with
  | nil => rfl
  | cons hnum _ ih => rw [List.map_cons, List.map_cons, ih, Nat.sub_add_cancel hnum.1]

theorem exists_coord (h : d.WellBuilt worldSize) (hme : me < worldSize)
    (hmember : d.isMember me = true) {nums : List ℕ} (hinside : d.Inside nums) :
    ∃ q, d.inGroup me q = true ∧ d.coord q = nums.map fun num => num - 1 := by
  have hrange : InRange (nums.map fun num => num - 1) d.sizes := by
    rw [InRange, List.forall₂_map_left_iff]
    refine hinside.imp ?_
    intro num size hnum
    omega
  have hlt := value_lt hrange one_pos
  rw [zero_add, one_mul] at hlt
  obtain ⟨q, hq, hrank⟩ := exists_commRank h hme hmember hlt
  exact ⟨q, hq, by rw [coord, hrank, residues_value hrange]⟩

/-- The named node is reached if and only if no process outside the group comes before it in the
world, and a post and a wait match if and only if this is so for both processes. -/
theorem namesNode_iff (h : d.WellBuilt worldSize) (hone : 1 ≤ d.sizes.length)
    (hseven : d.sizes.length ≤ 7) (hme : me < worldSize) (hmember : d.isMember me = true) :
    (∀ nums, d.Inside nums → (d.NamesNode me nums ↔
      ∀ q, d.inGroup me q = true → d.coord q = nums.map (fun num => num - 1) →
        ∀ r < q, d.inGroup me r = true)) ∧
    ∀ p q, d.inGroup me p = true → d.inGroup me q = true →
      (d.PostMatchesWait p q ↔ ∀ r, r < p ∨ r < q → d.inGroup me r = true) := by
  constructor
  · intro nums hinside
    have hnums := hinside.map_coords
    constructor
    · intro ⟨rank, hcalls, hgroup, hcoord⟩ q hq hcoordq
      rw [← hnums, ← hcoord, callsWith_coord_iff h hone hseven hme hmember hgroup] at hcalls
      rwa [eq_of_coord_eq h hme hmember hq hgroup (hcoordq.trans hcoord.symm)]
    · intro hbefore
      obtain ⟨q, hq, hcoord⟩ := exists_coord h hme hmember hinside
      refine ⟨q, ?_, hq, hcoord⟩
      rw [← hnums, ← hcoord, callsWith_coord_iff h hone hseven hme hmember hq]
      exact hbefore q hq hcoord
  · intro p q hp hq
    rw [PostMatchesWait, callsWith_coord_iff h hone hseven hme hmember hp,
      callsWith_coord_iff h hone hseven hme hmember hq]
    constructor
    · intro ⟨hbefore, hbefore'⟩ r hr
      exact hr.elim (hbefore' r) (hbefore r)
    · intro hbefore
      exact ⟨fun r hr => hbefore r (Or.inr hr), fun r hr => hbefore r (Or.inl hr)⟩

end NodesDecl

/-- The node array over all processes, whose fifth process has the coordinates `(2,2)`. -/
theorem namesNode_grid : gridNodesDecl.NamesNode 0 [2, 2] ∧ gridNodesDecl.PostMatchesWait 4 5 := by
  obtain ⟨hnames, hmatches⟩ := @NodesDecl.namesNode_iff 6 0 gridNodesDecl rfl (by decide)
    (by decide) (by decide) rfl
  have hsix : ∀ r < 6, gridNodesDecl.inGroup 0 r = true := by decide
  constructor
  · apply (hnames [2, 2] (by simp [NodesDecl.Inside, gridNodesDecl, NodesDecl.sizes])).mpr
    intro q hq _ r hr
    exact hsix r (hr.trans (of_decide_eq_true hq))
  · apply (hmatches 4 5 (by decide) (by decide)).mpr
    intro r hr
    exact hsix r (by omega)

/-- The first process of `m = l(2:5)` is the second one of the world, and the calls name the first
one of the world. -/
theorem not_namesNode_middle : middleNodesDecl.WellBuilt 6 ∧ middleNodesDecl.isMember 1 = true ∧
    middleNodesDecl.Inside [1] ∧ middleNodesDecl.inGroup 1 1 = true ∧
    middleNodesDecl.coord 1 = [0] ∧ middleNodesDecl.desc.CallsWith [1] 0 ∧
    middleNodesDecl.isMember 0 = false ∧ ¬ middleNodesDecl.NamesNode 1 [1] := by
  refine ⟨wellBuilt_middleNodesDecl, by decide, ?_, by decide, by decide, ?_, by decide, ?_⟩
  · simp [NodesDecl.Inside, middleNodesDecl, NodesDecl.sizes]
  · exact ⟨fun _ => rfl, fun _ => rfl, rfl⟩
  · rintro ⟨rank, hcalls, hgroup, -⟩
    have hsame : (0 : ℤ) = rank := PostWaitCall.waitNode.inj (Option.some.inj hcalls.2.2)
    obtain rfl : rank = 0 := by omega
    exact absurd hgroup (by decide)

end OmniCompiler.Xmp

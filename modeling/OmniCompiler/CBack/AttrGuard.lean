import OmniCompiler.CBack.AttrDecl

/-!
# The guard of attributes (`XcType.java`)

Whether a guard is opened is decided by one walk over the layers of a type, and it is closed in
particular cases of another one. The two agree if the layer next to the base type is a pointer, and
in some cases with functions and arrays.
-/
namespace OmniCompiler.CBack.AttrDecl

open Parens

/-! ## Guards and parentheses together -/

def scanPiece (s : GuardState × ℕ) (p : Piece) : Option (GuardState × ℕ) :=
  (p.role.scan s.1).bind fun g => (depth s.2 p.text).map fun d => (g, d)

def scan (s : GuardState × ℕ) (ps : List Piece) : Option (GuardState × ℕ) := ps.foldlM scanPiece s

theorem scan_append (s : GuardState × ℕ) (p q : List Piece) :
    scan s (p ++ q) = (scan s p).bind fun s => scan s q := List.foldlM_append

theorem depth_write (w : XmcWriter) (p : Piece) :
    depth 0 (p.write w).out = (depth 0 w.out).bind fun d => depth d p.text := by
  have hprint : ∀ (s : List Char) (w : XmcWriter), (w.print s).out = w.out ++ s := by
    intro s w
    unfold XmcWriter.print
    cases h : s.getLast? with
    | none => rw [List.getLast?_eq_none_iff.mp h, List.append_nil]
    | some c => rfl
  have hspc : ∀ w : XmcWriter, depth 0 w.spc.out = depth 0 w.out := by
    intro w
    unfold XmcWriter.spc
    split
    · rfl
    · split_ifs
      · rfl
      · rw [hprint, depth_append]
        cases depth 0 w.out with
        | none => rfl
        | some d => exact IsBalanced.depth (by decide) d
  unfold Piece.write
  split_ifs
  · rw [XmcWriter.addSpc, hprint, depth_append, hspc]
  · rw [XmcWriter.add, hprint, depth_append]

theorem depth_writePieces (ps : List Piece) (w : XmcWriter) : depth 0 (writePieces ps w).out =
    (depth 0 w.out).bind fun d => depth d (ps.flatMap Piece.text) := by
  induction ps generalizing w with
  | nil =>
    show depth 0 w.out = (depth 0 w.out).bind some
    rw [Option.bind_fun_some]
  | cons p ps ih =>
    rw [writePieces, List.foldl_cons, ← writePieces, ih, depth_write, Option.bind_assoc,
      List.flatMap_cons]
    simp only [depth_append]

theorem scan_eq_some_iff (s s' : GuardState × ℕ) (ps : List Piece) : scan s ps = some s' ↔
    scanGuards s.1 ps = some s'.1 ∧ depth s.2 (ps.flatMap Piece.text) = some s'.2 := by
  induction ps generalizing s with
  | nil =>
    show some s = some s' ↔ some s.1 = some s'.1 ∧ some s.2 = some s'.2
    rw [Option.some_inj, Option.some_inj, Option.some_inj, Prod.ext_iff]
  | cons p ps ih =>
    have hguards : scanGuards s.1 (p :: ps) =
        (p.role.scan s.1).bind fun g => scanGuards g ps := List.foldlM_cons
    have hscan : scan s (p :: ps) = (scanPiece s p).bind fun s => scan s ps := List.foldlM_cons
    rw [hguards, hscan, scanPiece, List.flatMap_cons, depth_append]
    cases p.role.scan s.1 with
    | none => simp
    | some g =>
      cases depth s.2 p.text with
      | none => simp
      | some d => simpa using ih (g, d)

theorem scan_eq_iff (ps : List Piece) :
    scan (.outside, 0) ps = some (.outside, 0) ↔ IsBalanced (text ps) ∧ GuardsClosed ps := by
  rw [scan_eq_some_iff, and_comm, IsBalanced, text, depth_writePieces]
  rfl

/-! ## Pieces that change nothing -/

def Inert (ps : List Piece) : Prop := ∀ s : GuardState × ℕ, s.1 ≠ .closed → scan s ps = some s

def Plain (ps : List Piece) : Prop := ∀ d, scan (.outside, d) ps = some (.outside, d)

theorem Inert.append {p q : List Piece} (hp : Inert p) (hq : Inert q) : Inert (p ++ q) := by
  intro s hs
  rw [scan_append, hp s hs, Option.bind_some, hq s hs]

theorem Plain.append {p q : List Piece} (hp : Plain p) (hq : Plain q) : Plain (p ++ q) := by
  intro d
  rw [scan_append, hp, Option.bind_some, hq]

theorem Inert.plain {p : List Piece} (h : Inert p) : Plain p :=
  fun d => h (.outside, d) GuardState.noConfusion

theorem inert_nil : Inert [] := fun _ _ => rfl

theorem Inert.ite {p : List Piece} (h : Inert p) (b : Bool) : Inert (if b then p else []) := by
  split_ifs
  · exact h
  · exact inert_nil

theorem scan_singleton (s : GuardState × ℕ) (p : Piece) : scan s [p] = scanPiece s p := by
  rw [scan, List.foldlM_cons]
  exact bind_pure _

theorem inert_specifier {s : List Char} (h : IsBalanced s) (spc : Bool) :
    Inert [⟨.specifier, spc, s⟩] := by
  intro ⟨g, d⟩ hg
  rw [scan_singleton, scanPiece, h.depth]
  cases g with
  | closed => exact absurd rfl hg
  | outside | opened | named => rfl

theorem plain_declarator {s : List Char} (h : IsBalanced s) (spc : Bool) :
    Plain [⟨.declarator, spc, s⟩] := by
  intro d
  rw [scan_singleton, scanPiece, Role.scan, h.depth]
  rfl

theorem balanced_attribute (a : XcGccAttribute) : IsBalanced a.code := by
  unfold XcGccAttribute.code
  split_ifs
  · exact a.name.balanced
  · apply a.name.balanced.append
    apply IsBalanced.parens
    apply balanced_intercalate (by decide)
    intro s hs
    obtain ⟨e, -, rfl⟩ := List.mem_map.mp hs
    exact e.balanced

theorem inert_appendGccAttribute (attrs : XcGccAttributeList) :
    Inert (appendGccAttribute attrs) := by
  unfold appendGccAttribute
  split_ifs
  · exact inert_nil
  · apply inert_specifier
    have hlist : IsBalanced (", ".toList.intercalate (attrs.map XcGccAttribute.code)) := by
      apply balanced_intercalate (by decide)
      intro s hs
      obtain ⟨a, -, rfl⟩ := List.mem_map.mp hs
      exact balanced_attribute a
    have hopen : depth 0 "__attribute__((".toList = some 2 := by decide
    have hclose : depth 2 "))".toList = some 0 := by decide
    rw [IsBalanced, depth_append, hopen, Option.bind_some, depth_append, hlist.depth,
      Option.bind_some, hclose]

theorem inert_appendTypeQualCode (q : TypeQual) : Inert (appendTypeQualCode q) :=
  (((inert_specifier (by decide) true).ite _).append
    ((inert_specifier (by decide) true).ite _)).append ((inert_specifier (by decide) true).ite _)

theorem inert_appendBasicType (hasList : Bool) (decls : List Decl) :
    Inert (appendBasicType hasList decls) := by
  induction decls with
  | nil => exact inert_nil
  | cons d decls ih =>
    cases d with
    | basic qual attrs =>
      rw [appendBasicType]
      refine (Inert.append ?_ (inert_appendTypeQualCode qual)).append ih
      split_ifs
      · exact inert_nil
      · exact inert_appendGccAttribute attrs
    | pointer _ _ | array _ _ _ _ _ | func _ _ _ _ _ => exact inert_nil

theorem plain_appendArraySpecCode (qual : TypeQual) (isStatic : Bool) (size : ArraySize)
    (isPreDecl isFirstIndex : Bool) :
    Plain (appendArraySpecCode qual isStatic size isPreDecl isFirstIndex) := by
  have hsize : Plain (size.append isPreDecl isFirstIndex) := by
    cases size with
    | none => exact inert_nil.plain
    | int n =>
      apply plain_declarator
      apply balanced_of_all
      intro c hc
      have hdigit := Nat.isDigit_of_mem_toDigits (by decide) (by decide) hc
      constructor
      · rintro rfl
        exact absurd hdigit (by decide)
      · rintro rfl
        exact absurd hdigit (by decide)
    | expr e =>
      unfold ArraySize.append
      split_ifs
      · exact plain_declarator (by decide) true
      · exact inert_nil.plain
      · exact plain_declarator e.balanced true
  have hstatic : Plain (if isStatic then [declaratorSpc "static".toList] else []) := by
    split_ifs
    · exact plain_declarator (by decide) true
    · exact inert_nil.plain
  have hopen : Plain [declarator "[".toList] := plain_declarator (by decide) false
  have hclose : Plain [declarator "]".toList] := plain_declarator (by decide) false
  exact (((hopen.append (inert_appendTypeQualCode qual).plain).append hstatic).append hsize).append
    hclose

theorem inert_flatMap (attrs : List XcGccAttributeList) :
    Inert (attrs.flatMap appendGccAttribute) := by
  induction attrs with
  | nil => exact inert_nil
  | cons a attrs ih => exact (inert_appendGccAttribute a).append ih

theorem balanced_getCCode (b : XcBaseTypeEnum) : IsBalanced b.getCCode := by
  cases b <;> decide

theorem plain_bottom (b : Bottom) : Plain b.append := by
  cases b with
  | base qual attrs b =>
    apply (inert_appendTypeQualCode qual).plain.append
    intro d
    rw [scan_singleton, scanPiece, (balanced_getCCode b).depth]
    rfl
  | tagged qual header tagName =>
    apply Inert.plain
    refine ((inert_appendTypeQualCode qual).append (inert_specifier ?_ true)).append ?_
    · cases header <;> decide
    · cases tagName with
      | none => exact inert_nil
      | some tag => exact inert_specifier tag.balanced true

theorem scan_base (qual : TypeQual) (attrs : XcGccAttributeList) (b : XcBaseTypeEnum) (d : ℕ) :
    scan (.opened, d) (Bottom.append (.base qual attrs b)) = some (.named, d) := by
  rw [Bottom.append, scan_append, inert_appendTypeQualCode qual _ GuardState.noConfusion,
    Option.bind_some, scan_singleton, scanPiece, (balanced_getCCode b).depth]
  rfl

theorem inert_appendStorage (t : XcType) : Inert t.appendStorage := by
  unfold XcType.appendStorage
  split
  · exact ((inert_specifier (by decide) true).ite _).append
      ((inert_specifier (by decide) true).ite _)
  · exact inert_nil

/-! ## Outcomes -/

/-- The pieces lead from one state to the other if `c` holds, and fail otherwise. -/
structure Decides (s s' : GuardState × ℕ) (ps : List Piece) (c : Prop) : Prop where
  ok : c → scan s ps = some s'
  fails : ¬ c → scan s ps = none

namespace Decides

variable {s s' s'' : GuardState × ℕ} {p q : List Piece} {c c' : Prop} {d : ℕ}

theorem append (h : Decides s s' p c) (h' : Decides s' s'' q c') :
    Decides s s'' (p ++ q) (c ∧ c') where
  ok := by
    intro ⟨hc, hc'⟩
    rw [scan_append, h.ok hc, Option.bind_some, h'.ok hc']
  fails := by
    intro hnot
    rw [scan_append]
    by_cases hc : c
    · rw [h.ok hc, Option.bind_some, h'.fails fun hc' => hnot ⟨hc, hc'⟩]
    · rw [h.fails hc, Option.bind_none]

theorem congr (h : Decides s s' p c) (hc : c' ↔ c) : Decides s s' p c' :=
  ⟨fun h' => h.ok (hc.mp h'), fun h' => h.fails (mt hc.mpr h')⟩

theorem of_scan (h : scan s p = some s') (hc : c) : Decides s s' p c :=
  ⟨fun _ => h, fun hnot => absurd hc hnot⟩

theorem inert_append (hs : s.1 ≠ .closed) (hp : Inert p) (h : Decides s s' q c) :
    Decides s s' (p ++ q) c :=
  ((of_scan (hp s hs) trivial).append h).congr (by rw [true_and])

theorem plain_append (hp : Plain p) (h : Decides (.outside, d) s' q c) :
    Decides (.outside, d) s' (p ++ q) c :=
  ((of_scan (hp d) trivial).append h).congr (by rw [true_and])

theorem append_plain (h : Decides s (.outside, d) p c) (hq : Plain q) :
    Decides s (.outside, d) (p ++ q) c :=
  (h.append (of_scan (hq d) trivial)).congr (by rw [and_true])

theorem brace (b : Bool) (hp : ∀ d, Decides (.outside, d) (.outside, d) p c)
    (hq : Decides (.outside, d) s' q c') :
    Decides (.outside, d) s' ((if b then [declarator "(".toList] else []) ++ (p ++
      ((if b then [declarator ")".toList] else []) ++ q))) (c ∧ c') := by
  cases b with
  | false => exact (hp d).append hq
  | true =>
    have hopen : scan (.outside, d) [declarator "(".toList] = some (.outside, d + 1) := rfl
    have hclose : scan (.outside, d + 1) [declarator ")".toList] = some (.outside, d) := rfl
    have hall := (of_scan hopen trivial).append
      ((hp (d + 1)).append ((of_scan hclose trivial).append hq))
    exact hall.congr (by rw [true_and, true_and])

end Decides

/-! ## Layers -/

/-- Going outwards from the base type, the guard is closed before a declarator begins. -/
def closesGuard : List Decl → Bool
  | [] => false
  | .basic _ _ :: decls => closesGuard decls
  | .pointer _ _ :: _ => true
  | .func _ _ _ _ _ :: decls =>
    !(peekRealType decls).any Decl.isPointer && closesGuard decls
  | .array _ _ _ _ _ :: decls => (peekRealType decls).any Decl.isFunc ||
    (!(peekRealType decls).any Decl.isPointer && closesGuard decls)

/-- The argument lists of the layers are right if and only if the condition holds. -/
inductive ArgsDecide : List Decl → Prop → Prop
  | nil : ArgsDecide [] True
  | basic {qual attrs decls c} : ArgsDecide decls c → ArgsDecide (.basic qual attrs :: decls) c
  | pointer {qual attrs decls c} : ArgsDecide decls c →
      ArgsDecide (.pointer qual attrs :: decls) c
  | array {qual attrs isStatic size refIsArray decls c} : ArgsDecide decls c →
      ArgsDecide (.array qual attrs isStatic size refIsArray :: decls) c
  | func {attrs isPrototype isPreDecl noParams appendArgs decls c₁ c} : (noParams = true → c₁) →
      (∀ d, Decides (.outside, d) (.outside, d)
        (appendArgs (!(peekRealType decls).any Decl.isPointer && !isPrototype)) c₁) →
      ArgsDecide decls c →
      ArgsDecide (.func attrs isPrototype isPreDecl noParams appendArgs :: decls) (c₁ ∧ c)

theorem ArgsDecide.popBasicTypes {decls : List Decl} {c : Prop} (h : ArgsDecide decls c) :
    ArgsDecide (popBasicTypes decls) c := by
  induction h with
  | nil => exact .nil
  | basic _ ih => exact ih
  | pointer h => exact .pointer h
  | array h => exact .array h
  | func hnone hargs h => exact .func hnone hargs h

theorem closesGuard_popBasicTypes (decls : List Decl) :
    closesGuard (popBasicTypes decls) = closesGuard decls := by
  induction decls with
  | nil => rfl
  | cons d decls ih =>
    cases d with
    | basic _ _ => exact ih
    | pointer _ _ | array _ _ _ _ _ | func _ _ _ _ _ => rfl

theorem decides_args {noParams : Bool} {args : List Piece} {c : Prop} (hnone : noParams = true → c)
    (hargs : ∀ d, Decides (.outside, d) (.outside, d) args c) (d : ℕ) :
    Decides (.outside, d) (.outside, d)
      (if noParams then [declarator "()".toList] else args) c := by
  cases noParams with
  | false => exact hargs d
  | true => exact .of_scan (plain_declarator (by decide) false d) (hnone rfl)

theorem plain_star : Plain [declaratorSpc "*".toList, space] :=
  (plain_declarator (by decide) true).append (inert_specifier (s := []) rfl true).plain

theorem plain_arrayEnd (qual : TypeQual) (isStatic : Bool) (size : ArraySize)
    (isPreDecl isFirstIndex refIsArray : Bool) (attrs : List XcGccAttributeList) :
    Plain (appendArraySpecCode qual isStatic size isPreDecl isFirstIndex ++
      (if refIsArray then [] else attrs.flatMap appendGccAttribute)) := by
  apply (plain_appendArraySpecCode qual isStatic size isPreDecl isFirstIndex).append
  split_ifs
  · exact inert_nil.plain
  · exact (inert_flatMap attrs).plain

theorem appendCode_unguarded (symbol : Option BalancedText) {decls : List Decl} {c : Prop}
    (h : ArgsDecide decls c) (isPreDecl : Bool)
    (attrOfArrayTypes : Option (List XcGccAttributeList)) (isFromFunc : Bool) (d : ℕ) :
    Decides (.outside, d) (.outside, d)
      (appendCode symbol isPreDecl false attrOfArrayTypes isFromFunc decls).1 c := by
  induction hn : decls.length using Nat.strong_induction_on generalizing decls c isPreDecl
    attrOfArrayTypes isFromFunc d with
  | _ n ih =>
  cases h with
  | nil =>
    cases symbol with
    | none =>
      rw [appendCode]
      exact .of_scan rfl trivial
    | some x =>
      rw [appendCode]
      exact .of_scan (plain_declarator x.balanced true d) trivial
  | @basic qual attrs decls c h =>
    have hlt : decls.length < n := hn ▸ Nat.lt_succ_self _
    rw [appendCode]
    exact .inert_append GuardState.noConfusion (((inert_appendGccAttribute attrs).ite _).append
      (inert_appendTypeQualCode qual)) (ih _ hlt h _ _ _ d rfl)
  | @pointer qual attrs decls c h =>
    have hlt : decls.length < n := hn ▸ Nat.lt_succ_self _
    rw [appendCode]
    exact .plain_append ((plain_star.append (inert_appendGccAttribute attrs).plain).append
      (inert_appendTypeQualCode qual).plain) (ih _ hlt h _ _ _ d rfl)
  | @array qual attrs isStatic size refIsArray decls c h =>
    have hlt : (popBasicTypes decls).length < n :=
      hn ▸ Nat.lt_succ_of_le (length_popBasicTypes decls)
    have hbasic := inert_appendBasicType true decls
    have hstar : Plain [declarator "*".toList] := plain_declarator (by decide) false
    rw [appendCode]
    by_cases hfunc : (peekRealType decls).any Decl.isFunc = true
    · simp only [hfunc, if_true, Bool.false_eq_true, if_false, List.append_nil]
      exact .plain_append (hbasic.plain.append hstar) (ih _ hlt h.popBasicTypes _ _ _ d rfl)
    · simp only [hfunc, List.append_assoc]
      apply Decides.inert_append GuardState.noConfusion hbasic
      refine (Decides.brace _ (fun d => ih _ hlt h.popBasicTypes _ _ _ d rfl)
        (.of_scan (plain_arrayEnd qual isStatic size _ _ refIsArray _ d) trivial)).congr ?_
      rw [and_true]
  | @func attrs isPrototype isPreDecl' noParams appendArgs decls c₁ c hnone hargs h =>
    have hlt : (popBasicTypes decls).length < n :=
      hn ▸ Nat.lt_succ_of_le (length_popBasicTypes decls)
    rw [appendCode]
    simp only [List.append_assoc]
    apply Decides.inert_append GuardState.noConfusion (inert_appendGccAttribute attrs)
    apply Decides.inert_append GuardState.noConfusion (inert_appendBasicType false decls)
    exact (Decides.brace _ (fun d => ih _ hlt h.popBasicTypes _ _ _ d rfl)
      (decides_args hnone hargs d)).congr and_comm

theorem appendCode_guarded (x : BalancedText) {decls : List Decl} {c : Prop}
    (h : ArgsDecide decls c) (isPreDecl : Bool)
    (attrOfArrayTypes : Option (List XcGccAttributeList)) (isFromFunc : Bool) (d : ℕ) :
    Decides (.named, d + 1) (.outside, d)
      (appendCode (some x) isPreDecl true attrOfArrayTypes isFromFunc decls).1
      (closesGuard decls = true ∧ c) := by
  induction hn : decls.length using Nat.strong_induction_on generalizing decls c isPreDecl
    attrOfArrayTypes isFromFunc d with
  | _ n ih =>
  have hclose : scan (.named, d + 1) [closeGuard] = some (.closed, d) := rfl
  have hdeclarator : ∀ (b : Bool) (s : List Char) (ps : List Piece),
      scan (.named, d + 1) (⟨.declarator, b, s⟩ :: ps) = none := by
    intro b s ps
    rfl
  cases h with
  | nil =>
    rw [appendCode]
    exact ⟨fun h => absurd h.1 Bool.false_ne_true, fun _ => hdeclarator _ _ _⟩
  | @basic qual attrs decls c h =>
    have hlt : decls.length < n := hn ▸ Nat.lt_succ_self _
    rw [appendCode]
    exact .inert_append GuardState.noConfusion (((inert_appendGccAttribute attrs).ite _).append
      (inert_appendTypeQualCode qual)) (ih _ hlt h _ _ _ d rfl)
  | @pointer qual attrs decls c h =>
    have hstar : scan (.closed, d) [declaratorSpc "*".toList, space] = some (.outside, d) := rfl
    rw [appendCode]
    simp only [if_true, List.append_assoc]
    refine ((Decides.of_scan hclose trivial).append ((Decides.of_scan hstar trivial).append
      (.plain_append (inert_appendGccAttribute attrs).plain
        (.plain_append (inert_appendTypeQualCode qual).plain
          (appendCode_unguarded _ h _ _ _ d))))).congr ?_
    rw [closesGuard, true_and, eq_self_iff_true]
  | @array qual attrs isStatic size refIsArray decls c h =>
    have hlt : (popBasicTypes decls).length < n :=
      hn ▸ Nat.lt_succ_of_le (length_popBasicTypes decls)
    have hbasic := inert_appendBasicType true decls
    have hstar : scan (.closed, d) [declarator "*".toList] = some (.outside, d) := rfl
    rw [appendCode, closesGuard]
    cases hfunc : (peekRealType decls).any Decl.isFunc with
    | true =>
      simp only [if_true, List.append_assoc, Bool.true_or]
      refine (Decides.inert_append GuardState.noConfusion hbasic
        ((Decides.of_scan hclose trivial).append ((Decides.of_scan hstar trivial).append
          (appendCode_unguarded _ h.popBasicTypes _ _ _ d)))).congr ?_
      rw [true_and, true_and]
    | false =>
      simp only [Bool.false_eq_true, if_false, List.append_assoc, Bool.false_or]
      apply Decides.inert_append GuardState.noConfusion hbasic
      cases hbrace : (peekRealType decls).any Decl.isPointer with
      | true => exact ⟨fun h => absurd h.1 (by simp), fun _ => hdeclarator _ _ _⟩
      | false =>
        have hrest := ih _ hlt h.popBasicTypes isPreDecl
          (some (attrOfArrayTypes.getD [] ++ ([attrs] ++ basicTypeAttrs decls))) false d rfl
        rw [closesGuard_popBasicTypes] at hrest
        rw [Bool.not_false, Bool.true_and]
        exact hrest.append_plain (plain_arrayEnd qual isStatic size _ _ refIsArray _)
  | @func attrs isPrototype isPreDecl' noParams appendArgs decls c₁ c hnone hargs h =>
    have hlt : (popBasicTypes decls).length < n :=
      hn ▸ Nat.lt_succ_of_le (length_popBasicTypes decls)
    rw [appendCode, closesGuard]
    simp only [List.append_assoc]
    apply Decides.inert_append GuardState.noConfusion (inert_appendGccAttribute attrs)
    apply Decides.inert_append GuardState.noConfusion (inert_appendBasicType false decls)
    cases hbrace : (peekRealType decls).any Decl.isPointer with
    | true => exact ⟨fun h => absurd h.1 (by simp), fun _ => hdeclarator _ _ _⟩
    | false =>
      have hrest := ih _ hlt h.popBasicTypes isPreDecl' attrOfArrayTypes false d rfl
      rw [closesGuard_popBasicTypes] at hrest
      rw [hbrace] at hargs
      refine (hrest.append (decides_args hnone hargs d)).congr ?_
      rw [and_assoc, and_comm (a := c)]
      rfl

/-! ## The condition -/

/-- There is no guard or it is closed. -/
def GuardRight (t : XcType) (symbol : Option BalancedText) : Prop :=
  symbol = none ∨ needAttrGuard t.bottom t.decls = false ∨ closesGuard t.decls = true

mutual

/-- The parameters of all function types are right. A function type directly under a pointer type
or a prototype leaves out the symbols. -/
def XcType.ParamsRight (isPointed : Bool) : XcType → Prop
  | .base _ _ _ => True
  | .tagged _ _ _ _ => True
  | .basic _ _ t => t.ParamsRight isPointed
  | .pointer _ _ t => t.ParamsRight true
  | .array _ _ _ _ t => t.ParamsRight false
  | .func _ isPrototype _ _ _ _ params t =>
    params.Right (!isPointed && !isPrototype) ∧ t.ParamsRight false

def XcParamList.Right (paramSymbol : Bool) : XcParamList → Prop
  | .nil => True
  | .cons symbol t rest =>
    (GuardRight t (if paramSymbol then symbol else none) ∧ t.ParamsRight false) ∧
      rest.Right paramSymbol

end

theorem appendDecls_eq (t : XcType) (decls : List Decl) (symbol : Option BalancedText)
    (isPreDecl : Bool) (attr : XcGccAttributeList) (isFromFunc : Bool) :
    appendDecls t decls symbol isPreDecl attr isFromFunc = t.appendStorage ++
      ((if symbol.isSome && needAttrGuard t.bottom decls then [openGuard] else []) ++ ([space] ++
        (appendGccAttribute attr ++ (t.bottom.append ++ ((if decls.isEmpty then [] else [space]) ++
          (appendCode symbol isPreDecl (symbol.isSome && needAttrGuard t.bottom decls) none
            isFromFunc decls).1))))) := by
  unfold appendDecls
  simp only [List.append_assoc]
  cases decls with
  | nil =>
    cases symbol with
    | none =>
      rw [appendCode]
      rfl
    | some x => rfl
  | cons d decls => rfl

theorem decides_appendDecls (t : XcType) {c : Prop} (h : ArgsDecide t.decls c)
    (symbol : Option BalancedText) (isPreDecl : Bool) (attr : XcGccAttributeList)
    (isFromFunc : Bool) (d : ℕ) : Decides (.outside, d) (.outside, d)
      (appendDecls t t.decls symbol isPreDecl attr isFromFunc) (GuardRight t symbol ∧ c) := by
  have hspace : Inert [space] := inert_specifier (s := []) rfl true
  have hempty : Inert (if t.decls.isEmpty then [] else [space]) := by
    split_ifs
    · exact inert_nil
    · exact hspace
  rw [appendDecls_eq]
  apply Decides.inert_append GuardState.noConfusion (inert_appendStorage t)
  cases hguard : symbol.isSome && needAttrGuard t.bottom t.decls with
  | false =>
    have hright : GuardRight t symbol := by
      cases symbol with
      | none => exact .inl rfl
      | some x => exact .inr (.inl hguard)
    apply Decides.inert_append GuardState.noConfusion inert_nil
    apply Decides.inert_append GuardState.noConfusion hspace
    apply Decides.inert_append GuardState.noConfusion (inert_appendGccAttribute attr)
    apply Decides.plain_append (plain_bottom t.bottom)
    apply Decides.inert_append GuardState.noConfusion hempty
    exact (appendCode_unguarded symbol h _ _ _ d).congr (and_iff_right hright)
  | true =>
    obtain ⟨hsome, hneed⟩ := (Bool.and_eq_true _ _).mp hguard
    obtain ⟨x, rfl⟩ := Option.isSome_iff_exists.mp hsome
    have hright : GuardRight t (some x) ↔ closesGuard t.decls = true := by
      rw [GuardRight, hneed]
      simp
    cases hbottom : t.bottom with
    | tagged qual header tagName =>
      rw [hbottom] at hneed
      exact absurd hneed Bool.false_ne_true
    | base qual attrs b =>
      have hopen : scan (.outside, d) [openGuard] = some (.opened, d + 1) := rfl
      have hrest := Decides.inert_append GuardState.noConfusion hempty
        (appendCode_guarded x h isPreDecl none isFromFunc d)
      have hbase := (Decides.of_scan (scan_base qual attrs b (d + 1)) trivial).append hrest
      have hattr := Decides.inert_append GuardState.noConfusion (inert_appendGccAttribute attr)
        hbase
      have hall := (Decides.of_scan hopen trivial).append
        (Decides.inert_append GuardState.noConfusion hspace hattr)
      apply hall.congr
      rw [hright, true_and, true_and]

mutual

theorem XcType.argsDecide (t : XcType) {decls : List Decl} {c : Prop} (h : ArgsDecide decls c) :
    ArgsDecide (t.decls ++ decls)
      (t.ParamsRight ((peekRealType decls).any Decl.isPointer) ∧ c) := by
  cases t with
  | base qual attrs b =>
    rw [XcType.ParamsRight, true_and]
    exact h
  | tagged qual attrs header tagName =>
    rw [XcType.ParamsRight, true_and]
    exact h
  | basic qual attrs t =>
    rw [XcType.decls, List.append_assoc]
    exact t.argsDecide h.basic
  | pointer qual attrs t =>
    rw [XcType.decls, List.append_assoc]
    exact t.argsDecide h.pointer
  | array qual attrs isStatic size t =>
    rw [XcType.decls, List.append_assoc]
    exact t.argsDecide h.array
  | func attrs isPrototype isInline isStatic isPreDecl isEllipsised params t =>
    rw [XcType.decls, List.append_assoc, XcType.ParamsRight, and_right_comm, and_comm]
    apply t.argsDecide
    refine ArgsDecide.func ?_ ?_ h
    · intro hempty
      cases params with
      | nil => exact trivial
      | cons _ _ _ => exact absurd hempty Bool.false_ne_true
    · intro d
      have hparams := params.decides (!(peekRealType decls).any Decl.isPointer && !isPrototype)
        isPreDecl (d + 1)
      have hopen : scan (.outside, d) [declarator "(".toList] = some (.outside, d + 1) := rfl
      have hclose : scan (.outside, d + 1) [declarator ")".toList] = some (.outside, d) := rfl
      have hdots : Plain (if isEllipsised then [declarator ", ...".toList] else []) := by
        split_ifs
        · exact plain_declarator (by decide) false
        · exact inert_nil.plain
      have hall := (Decides.of_scan hopen trivial).append
        ((hparams.append_plain hdots).append (Decides.of_scan hclose trivial))
      rw [← List.append_assoc, ← List.append_assoc] at hall
      exact hall.congr (by rw [true_and, and_true])

theorem XcParamList.decides (params : XcParamList) (paramSymbol isPreDecl : Bool) (d : ℕ) :
    Decides (.outside, d) (.outside, d) (params.appendParams paramSymbol isPreDecl)
      (params.Right paramSymbol) := by
  cases params with
  | nil => exact .of_scan rfl trivial
  | cons symbol t rest =>
    have hargs := t.argsDecide .nil
    rw [List.append_nil, and_true] at hargs
    have hcomma : Plain (if rest.isEmpty then [] else [declarator ",".toList]) := by
      split_ifs
      · exact inert_nil.plain
      · exact plain_declarator (by decide) false
    rw [XcParamList.appendParams]
    exact ((decides_appendDecls t hargs _ isPreDecl [] true d).append_plain hcomma).append
      (rest.decides paramSymbol isPreDecl d)

end

theorem XcType.decides_appendDeclCode (t : XcType) (symbol : Option BalancedText)
    (isPreDecl : Bool) (attr : XcGccAttributeList) (isFromFunc : Bool) :
    Decides (.outside, 0) (.outside, 0) (t.appendDeclCode symbol isPreDecl attr isFromFunc)
      (GuardRight t symbol ∧ t.ParamsRight false) := by
  have hargs := t.argsDecide .nil
  rw [List.append_nil, and_true] at hargs
  exact decides_appendDecls t hargs symbol isPreDecl attr isFromFunc 0

/-- The guards are closed if and only if that of the declaration and those of the parameters are
closed before a declarator begins. -/
theorem guardsClosed_iff (t : XcType) (symbol : Option BalancedText) (isPreDecl : Bool)
    (attr : XcGccAttributeList) (isFromFunc : Bool) :
    (IsBalanced (text (t.appendDeclCode symbol isPreDecl attr isFromFunc)) ∧
        GuardsClosed (t.appendDeclCode symbol isPreDecl attr isFromFunc)) ↔
      GuardRight t symbol ∧ t.ParamsRight false := by
  have hdecides := t.decides_appendDeclCode symbol isPreDecl attr isFromFunc
  rw [← scan_eq_iff]
  constructor
  · intro hscan
    by_contra hnot
    rw [hdecides.fails hnot] at hscan
    exact absurd hscan (by simp)
  · exact hdecides.ok

/-- `int __attribute__((aligned(8))) x[2][3]` -/
def alignedMatrix : XcType :=
  .array {} [] false (.int 2) (.array {} [] false (.int 3)
    (.basic {} [⟨⟨"aligned".toList, by decide⟩, [⟨"8".toList, by decide⟩]⟩] (.base {} [] .int)))

theorem text_alignedMatrix :
    text (alignedMatrix.appendDeclCode (some ⟨['x'], by decide⟩) false [] false) =
      "typeof(int __attribute__((aligned(8))) x[2][3]".toList := by
  unfold XcType.appendDeclCode
  rw [appendDecls_eq]
  simp only [alignedMatrix, XcType.decls, appendCode, popBasicTypes, peekRealType,
    List.nil_append, List.cons_append]
  decide +kernel

/-- No declarator of an array of arrays closes the guard. -/
theorem alignedMatrix_not_balanced : ¬ (
    IsBalanced (text (alignedMatrix.appendDeclCode (some ⟨['x'], by decide⟩) false [] false)) ∧
      GuardsClosed (alignedMatrix.appendDeclCode (some ⟨['x'], by decide⟩) false [] false)) := by
  intro ⟨hbalanced, _⟩
  rw [text_alignedMatrix] at hbalanced
  exact absurd hbalanced (by decide)

end OmniCompiler.CBack.AttrDecl

import OmniCompiler.CBack.Types
import OmniCompiler.Text.Parens

/-!
# Declarations of types with attributes (`XcType.java`)

What `appendDeclCode` writes is a list of pieces, one for each call of the writer. A piece knows
whether it belongs to a specifier or to a declarator, and which parentheses are those of a guard
`typeof(`.
-/
namespace OmniCompiler.CBack.AttrDecl

open Parens

/-! ## Pieces -/

inductive Role
  | specifier
  /-- The name of a base type. -/
  | baseType
  | declarator
  | openGuard
  | closeGuard
  deriving DecidableEq

/-- One call of `addSpc` or `add`. -/
structure Piece where
  role : Role
  spc : Bool
  text : List Char

def Piece.write (w : XmcWriter) (p : Piece) : XmcWriter :=
  if p.spc then w.addSpc p.text else w.add p.text

def writePieces (ps : List Piece) (w : XmcWriter) : XmcWriter := ps.foldl Piece.write w

def specifier (text : List Char) : Piece := ⟨.specifier, true, text⟩

/-- `w.spc()` -/
def space : Piece := ⟨.specifier, true, []⟩

def declarator (text : List Char) : Piece := ⟨.declarator, false, text⟩

def declaratorSpc (text : List Char) : Piece := ⟨.declarator, true, text⟩

def openGuard : Piece := ⟨.openGuard, true, "typeof(".toList⟩

def closeGuard : Piece := ⟨.closeGuard, false, ")".toList⟩

/-! ## Attributes and qualifiers -/

structure XcGccAttribute where
  name : BalancedText
  exprList : List BalancedText

def XcGccAttribute.code (a : XcGccAttribute) : List Char :=
  if a.exprList.isEmpty then a.name.text
  else a.name.text ++
    '(' :: (", ".toList.intercalate (a.exprList.map BalancedText.text) ++ [')'])

/-- The list may also be missing, which is the same as the empty one here. -/
abbrev XcGccAttributeList := List XcGccAttribute

def isGccAligned (attrs : XcGccAttributeList) : Bool :=
  attrs.any fun a => a.name.text = "aligned".toList

/-- `appendGccAtrribute` -/
def appendGccAttribute (attrs : XcGccAttributeList) : List Piece :=
  if attrs.isEmpty then []
  else [specifier ("__attribute__((".toList ++
    (", ".toList.intercalate (attrs.map XcGccAttribute.code) ++ "))".toList))]

def appendTypeQualCode (q : TypeQual) : List Piece :=
  (if q.isConst then [specifier "const".toList] else []) ++
    (if q.isVolatile then [specifier "volatile".toList] else []) ++
      if q.isRestrict then [specifier "restrict".toList] else []

/-! ## Types -/

/-- `_isArraySize` and `_isArraySizeExpr`. -/
inductive ArraySize
  | none
  | int (arraySize : ℕ)
  | expr (arraySizeExpr : BalancedText)

mutual

inductive XcType
  | base (qual : TypeQual) (attrs : XcGccAttributeList) (baseTypeEnum : XcBaseTypeEnum)
  | tagged (qual : TypeQual) (attrs : XcGccAttributeList) (header : TypeNameHeader)
      (tagName : Option BalancedText)
  | basic (qual : TypeQual) (attrs : XcGccAttributeList) (refType : XcType)
  | pointer (qual : TypeQual) (attrs : XcGccAttributeList) (refType : XcType)
  | array (qual : TypeQual) (attrs : XcGccAttributeList) (isStatic : Bool) (size : ArraySize)
      (refType : XcType)
  | func (attrs : XcGccAttributeList) (isPrototype isInline isStatic isPreDecl isEllipsised : Bool)
      (paramList : XcParamList) (refType : XcType)

inductive XcParamList
  | nil
  | cons (symbol : Option BalancedText) (type : XcType) (rest : XcParamList)

end

def XcParamList.isEmpty : XcParamList → Bool
  | nil => true
  | cons _ _ _ => false

/-- A layer of the stack, which begins with the one next to the base type. `refIsArray` tells that
the real type of the elements is an array type. -/
inductive Decl
  | basic (qual : TypeQual) (attrs : XcGccAttributeList)
  | pointer (qual : TypeQual) (attrs : XcGccAttributeList)
  | array (qual : TypeQual) (attrs : XcGccAttributeList) (isStatic : Bool) (size : ArraySize)
      (refIsArray : Bool)
  | func (attrs : XcGccAttributeList) (isPrototype isPreDecl noParams : Bool)
      (appendArgs : Bool → List Piece)

namespace Decl

def isPointer : Decl → Bool
  | pointer _ _ => true
  | _ => false

def isFunc : Decl → Bool
  | func _ _ _ _ _ => true
  | _ => false

end Decl

/-! ## The guard -/

def recNeedAttrGuard : List Decl → Bool → Bool
  | [], _ => false
  | .pointer _ _ :: _, hasAttr => hasAttr
  | .array _ _ _ _ _ :: decls, hasAttr => if decls.isEmpty then false else hasAttr
  | .basic _ attrs :: decls, hasAttr => recNeedAttrGuard decls (hasAttr || !attrs.isEmpty)
  | .func attrs _ _ _ _ :: decls, hasAttr => recNeedAttrGuard decls (hasAttr || !attrs.isEmpty)

/-- The type under all layers, `canBeBottomType`. -/
inductive Bottom
  | base (qual : TypeQual) (attrs : XcGccAttributeList) (baseTypeEnum : XcBaseTypeEnum)
  | tagged (qual : TypeQual) (header : TypeNameHeader) (tagName : Option BalancedText)

def needAttrGuard (type : Bottom) (decls : List Decl) : Bool :=
  match type with
  | .tagged _ _ _ => false
  | .base _ attrs _ => recNeedAttrGuard decls (!attrs.isEmpty)

/-! ## `_appendCode` -/

/-- What `_appendBasicType` leaves on the stack. -/
def popBasicTypes : List Decl → List Decl
  | .basic _ _ :: decls => popBasicTypes decls
  | decls => decls

/-- What `_appendBasicType` writes; it leaves out the attributes if it has a list to add them to. -/
def appendBasicType (hasList : Bool) : List Decl → List Piece
  | .basic qual attrs :: decls =>
    (if hasList then [] else appendGccAttribute attrs) ++ appendTypeQualCode qual ++
      appendBasicType hasList decls
  | _ => []

/-- What `_appendBasicType` adds to the list. -/
def basicTypeAttrs : List Decl → List XcGccAttributeList
  | .basic _ attrs :: decls => attrs :: basicTypeAttrs decls
  | _ => []

def peekRealType (decls : List Decl) : Option Decl := (popBasicTypes decls).head?

theorem length_popBasicTypes (decls : List Decl) :
    (popBasicTypes decls).length ≤ decls.length := by
  induction decls with
  | nil => exact le_refl _
  | cons d decls ih =>
    cases d with
    | basic _ _ => exact ih.trans (Nat.le_succ _)
    | pointer _ _ | array _ _ _ _ _ | func _ _ _ _ _ => exact le_refl _

def ArraySize.append (isPreDecl isFirstIndex : Bool) : ArraySize → List Piece
  | none => []
  | int n => [declaratorSpc (Nat.toDigits 10 n)]
  | expr e =>
    if isPreDecl then if isFirstIndex then [declaratorSpc "*".toList] else []
    else [declaratorSpc e.text]

def appendArraySpecCode (qual : TypeQual) (isStatic : Bool) (size : ArraySize)
    (isPreDecl isFirstIndex : Bool) : List Piece :=
  [declarator "[".toList] ++ appendTypeQualCode qual ++
    (if isStatic then [declaratorSpc "static".toList] else []) ++
      size.append isPreDecl isFirstIndex ++ [declarator "]".toList]

/-- `_appendCode`, with the list of array attributes as it is left. The callers share this list. -/
def appendCode (symbol : Option BalancedText) (isPreDecl isAttrGuarded : Bool)
    (attrOfArrayTypes : Option (List XcGccAttributeList)) (isFromFunc : Bool) :
    List Decl → List Piece × Option (List XcGccAttributeList)
  | [] =>
    match symbol with
    | some x => ([declaratorSpc x.text], attrOfArrayTypes)
    | none => ([], attrOfArrayTypes)
  | .basic qual attrs :: decls =>
    let rest := appendCode symbol isPreDecl isAttrGuarded attrOfArrayTypes false decls
    ((if !isFromFunc || !isGccAligned attrs then appendGccAttribute attrs else []) ++
      appendTypeQualCode qual ++ rest.1, rest.2)
  | .pointer qual attrs :: decls =>
    let rest := appendCode symbol isPreDecl false attrOfArrayTypes false decls
    ((if isAttrGuarded then [closeGuard] else []) ++ [declaratorSpc "*".toList, space] ++
      appendGccAttribute attrs ++ appendTypeQualCode qual ++ rest.1, rest.2)
  | .func attrs isPrototype isPreDecl noParams appendArgs :: decls =>
    let brace := (peekRealType decls).any Decl.isPointer
    let rest := appendCode symbol isPreDecl isAttrGuarded attrOfArrayTypes false
      (popBasicTypes decls)
    (appendGccAttribute attrs ++ appendBasicType false decls ++
      (if brace then [declarator "(".toList] else []) ++ rest.1 ++
      (if brace then [declarator ")".toList] else []) ++
      (if noParams then [declarator "()".toList] else appendArgs (!brace && !isPrototype)), rest.2)
  | .array qual attrs isStatic size refIsArray :: decls =>
    let brace := (peekRealType decls).any Decl.isPointer
    let attrOfArrayTypes := attrOfArrayTypes.getD [] ++ [attrs] ++ basicTypeAttrs decls
    if (peekRealType decls).any Decl.isFunc then
      let rest := appendCode symbol isPreDecl false (some attrOfArrayTypes) false
        (popBasicTypes decls)
      (appendBasicType true decls ++ (if isAttrGuarded then [closeGuard] else []) ++
        [declarator "*".toList] ++ rest.1, rest.2)
    else
      let rest := appendCode symbol isPreDecl isAttrGuarded (some attrOfArrayTypes) false
        (popBasicTypes decls)
      (appendBasicType true decls ++ (if brace then [declarator "(".toList] else []) ++ rest.1 ++
        (if brace then [declarator ")".toList] else []) ++
        appendArraySpecCode qual isStatic size isPreDecl (popBasicTypes decls).isEmpty ++
        (if refIsArray then [] else (rest.2.getD []).flatMap appendGccAttribute), rest.2)
termination_by decls => decls.length
decreasing_by
  all_goals first
    | exact Nat.lt_succ_self _
    | exact Nat.lt_succ_of_le (length_popBasicTypes _)

/-! ## `appendDeclCode` -/

def XcType.bottom : XcType → Bottom
  | .base qual attrs b => .base qual attrs b
  | .tagged qual _ header tagName => .tagged qual header tagName
  | .basic _ _ t => t.bottom
  | .pointer _ _ t => t.bottom
  | .array _ _ _ _ t => t.bottom
  | .func _ _ _ _ _ _ _ t => t.bottom

/-- `appendTypeQualCode` and `appendTypeNameCode` of the bottom type. -/
def Bottom.append : Bottom → List Piece
  | .base qual _ b => appendTypeQualCode qual ++ [⟨.baseType, true, b.getCCode⟩]
  | .tagged qual header tagName =>
    appendTypeQualCode qual ++ [specifier header.keyword.code] ++
      match tagName with
      | some tag => [specifier tag.text]
      | none => []

def XcType.appendStorage : XcType → List Piece
  | .func _ false isInline isStatic _ _ _ _ =>
    (if isStatic then [specifier "static".toList] else []) ++
      if isInline then [specifier "inline".toList] else []
  | _ => []

def XcType.realIsArray : XcType → Bool
  | .basic _ _ t => t.realIsArray
  | .array _ _ _ _ _ => true
  | _ => false

/-- `appendDeclCode` of a type whose stack is `decls`. -/
def appendDecls (t : XcType) (decls : List Decl) (symbol : Option BalancedText) (isPreDecl : Bool)
    (attr : XcGccAttributeList) (isFromFunc : Bool) : List Piece :=
  let isAttrGuarded := symbol.isSome && needAttrGuard t.bottom decls
  t.appendStorage ++ (if isAttrGuarded then [openGuard] else []) ++ [space] ++
    appendGccAttribute attr ++ t.bottom.append ++
    if decls.isEmpty then
      match symbol with
      | some _ => (appendCode symbol isPreDecl isAttrGuarded none isFromFunc decls).1
      | none => []
    else [space] ++ (appendCode symbol isPreDecl isAttrGuarded none isFromFunc decls).1

mutual

def XcType.decls : XcType → List Decl
  | .base _ _ _ => []
  | .tagged _ _ _ _ => []
  | .basic qual attrs t => t.decls ++ [.basic qual attrs]
  | .pointer qual attrs t => t.decls ++ [.pointer qual attrs]
  | .array qual attrs isStatic size t =>
    t.decls ++ [.array qual attrs isStatic size t.realIsArray]
  | .func attrs isPrototype _ _ isPreDecl isEllipsised params t =>
    t.decls ++ [.func attrs isPrototype isPreDecl params.isEmpty fun paramSymbol =>
      -- `appendArgs`
      [declarator "(".toList] ++ params.appendParams paramSymbol isPreDecl ++
        (if isEllipsised then [declarator ", ...".toList] else []) ++ [declarator ")".toList]]

/-- The loop of `appendArgs`. -/
def XcParamList.appendParams (paramSymbol isPreDecl : Bool) : XcParamList → List Piece
  | .nil => []
  | .cons symbol t rest =>
    appendDecls t t.decls (if paramSymbol then symbol else none) isPreDecl [] true ++
      (if rest.isEmpty then [] else [declarator ",".toList]) ++
      rest.appendParams paramSymbol isPreDecl

end

def XcType.appendDeclCode (t : XcType) (symbol : Option BalancedText) (isPreDecl : Bool)
    (attr : XcGccAttributeList) (isFromFunc : Bool) : List Piece :=
  appendDecls t t.decls symbol isPreDecl attr isFromFunc

/-- The text that is written. -/
def text (ps : List Piece) : List Char := (writePieces ps {}).out

/-! ## The guards of a text -/

inductive GuardState
  | outside
  /-- The base type is missing. -/
  | opened
  /-- The base type is there. -/
  | named
  /-- The declarator that uses the guard has to follow. -/
  | closed
  deriving DecidableEq

/-- The state behind a piece, `none` if the piece must not stand there. Within a guard there are one
base type and specifiers, and a declarator comes directly behind it. -/
def Role.scan : Role → GuardState → Option GuardState
  | .specifier, .outside => some .outside
  | .specifier, .opened => some .opened
  | .specifier, .named => some .named
  | .baseType, .outside => some .outside
  | .baseType, .opened => some .named
  | .declarator, .outside => some .outside
  | .declarator, .closed => some .outside
  | .openGuard, .outside => some .opened
  | .closeGuard, .named => some .closed
  | _, _ => none

def scanGuards (g : GuardState) (ps : List Piece) : Option GuardState :=
  ps.foldlM (fun g p => p.role.scan g) g

/-- Every guard that is opened is closed once, behind the base type and its attributes and before
the declarator that uses it. -/
def GuardsClosed (ps : List Piece) : Prop := scanGuards .outside ps = some .outside

end OmniCompiler.CBack.AttrDecl

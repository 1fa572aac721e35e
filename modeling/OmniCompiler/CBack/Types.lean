import OmniCompiler.CBack.Writer

/-!
# Declarations written by the C back end (`XcType.java`)

Types without attributes whose arrays have an integer size or none. A function layer of the stack
of `appendDeclCode` holds the writer of its argument list, so that the recursion over the stack
needs the parameters' types no more.
-/
namespace OmniCompiler.CBack

open XmcWriter

/-! ## Types -/

inductive XcBaseTypeEnum
  | void
  | char
  | short
  | int
  | long
  | longlong
  | uchar
  | ushort
  | uint
  | ulong
  | ulonglong
  | float
  | double
  | longdouble
  | bool
  | wchar
  | floatComplex
  | doubleComplex
  | longdoubleComplex
  | floatImag
  | doubleImag
  | longdoubleImag
  | gccBuiltinVaList
  deriving DecidableEq

def XcBaseTypeEnum.getCCode : XcBaseTypeEnum → List Char
  | void => "void".toList
  | char => "char".toList
  | short => "short".toList
  | int => "int".toList
  | long => "long".toList
  | longlong => "long long".toList
  | uchar => "unsigned char".toList
  | ushort => "unsigned short".toList
  | uint => "unsigned int".toList
  | ulong => "unsigned long".toList
  | ulonglong => "unsigned long long".toList
  | float => "float".toList
  | double => "double".toList
  | longdouble => "long double".toList
  | bool => "_Bool".toList
  | wchar => "wchar_t".toList
  | floatComplex => "float _Complex".toList
  | doubleComplex => "double _Complex".toList
  | longdoubleComplex => "long double _Complex".toList
  | floatImag => "float _Complex".toList
  | doubleImag => "double _Complex".toList
  | longdoubleImag => "long double _Complex".toList
  | gccBuiltinVaList => "__builtin_va_list".toList

/-- `_isConst`, `_isVolatile` and `_isRestrict`. -/
structure TypeQual where
  isConst : Bool := false
  isVolatile : Bool := false
  isRestrict : Bool := false
  deriving DecidableEq

/-- `getTypeNameHeader` of `XcStructType`, `XcUnionType` and `XcEnumType`. -/
inductive TypeNameHeader
  | struct
  | union
  | enum
  deriving DecidableEq

def TypeNameHeader.keyword : TypeNameHeader → Keyword
  | struct => .struct
  | union => .union
  | enum => .enum

mutual

/-- `XcBaseType`, `XcTaggedType`, `XcBasicType`, `XcPointerType`, `XcArrayType`, `XcFuncType`. -/
inductive XcType
  | base (qual : TypeQual) (baseTypeEnum : XcBaseTypeEnum)
  | tagged (qual : TypeQual) (header : TypeNameHeader) (tagName : Option Ident)
  | basic (qual : TypeQual) (refType : XcType)
  | pointer (qual : TypeQual) (refType : XcType)
  | array (qual : TypeQual) (isStatic : Bool) (arraySize : Option ℕ) (refType : XcType)
  | func (isPrototype isInline isStatic isEllipsised : Bool) (paramList : XcParamList)
      (refType : XcType)

inductive XcParamList
  | nil
  | cons (symbol : Option Ident) (type : XcType) (rest : XcParamList)

end

def XcParamList.isEmpty : XcParamList → Bool
  | nil => true
  | cons _ _ _ => false

/-! ## The stack of declarator layers, innermost first -/

inductive Decl
  | basic (qual : TypeQual)
  | pointer (qual : TypeQual)
  | array (qual : TypeQual) (isStatic : Bool) (arraySize : Option ℕ)
  | func (isPrototype noParams : Bool) (appendArgs : Bool → XmcWriter → XmcWriter)

def Decl.isPointer : Decl → Bool
  | pointer _ => true
  | _ => false

def Decl.isFunc : Decl → Bool
  | func _ _ _ => true
  | _ => false

def appendTypeQualCode (q : TypeQual) (w : XmcWriter) : XmcWriter :=
  let w := if q.isConst then w.addSpc (Keyword.code .const) else w
  let w := if q.isVolatile then w.addSpc (Keyword.code .volatile) else w
  if q.isRestrict then w.addSpc (Keyword.code .restrict) else w

def appendArraySpecCode (q : TypeQual) (isStatic : Bool) (arraySize : Option ℕ) (w : XmcWriter) :
    XmcWriter :=
  let w := w.add ['[']
  let w := appendTypeQualCode q w
  let w := if isStatic then w.addSpc (Keyword.code .static) else w
  let w :=
    match arraySize with
    | some n => w.addSpcInt n
    | none => w
  w.add [']']

/-- `_appendBasicType` pops the basic types on the top of the stack. -/
def appendBasicType : List Decl → XmcWriter → List Decl × XmcWriter
  | .basic q :: decls, w => appendBasicType decls (appendTypeQualCode q w)
  | decls, w => (decls, w)

def peekRealType : List Decl → Option Decl
  | [] => none
  | .basic _ :: decls => peekRealType decls
  | d :: _ => some d

theorem length_appendBasicType (decls : List Decl) (w : XmcWriter) :
    (appendBasicType decls w).1.length ≤ decls.length := by
  induction decls generalizing w with
  | nil => exact le_refl _
  | cons d decls ih =>
    cases d with
    | basic q => exact (ih _).trans (Nat.le_succ _)
    | pointer q => exact le_refl _
    | array q isStatic n => exact le_refl _
    | func isPrototype noParams appendArgs => exact le_refl _

def appendCode (symbol : Option Ident) : List Decl → XmcWriter → XmcWriter
  | [], w =>
    match symbol with
    | some x => w.addSpc x.code
    | none => w
  | .basic q :: decls, w => appendCode symbol decls (appendTypeQualCode q w)
  | .pointer q :: decls, w =>
    appendCode symbol decls (appendTypeQualCode q (w.addSpc ['*']).spc)
  | .func isPrototype noParams appendArgs :: decls, w =>
    let brace := (peekRealType decls).any Decl.isPointer
    let rest := appendBasicType decls w
    let w := if brace then rest.2.add ['('] else rest.2
    let w := appendCode symbol rest.1 w
    let w := if brace then w.add [')'] else w
    if noParams then w.add ['(', ')'] else appendArgs (!brace && !isPrototype) w
  | .array q isStatic arraySize :: decls, w =>
    let brace := (peekRealType decls).any Decl.isPointer
    let rest := appendBasicType decls w
    if rest.1.head?.any Decl.isFunc then
      appendCode symbol rest.1 (rest.2.add ['*'])
    else
      let w := if brace then rest.2.add ['('] else rest.2
      let w := appendCode symbol rest.1 w
      let w := if brace then w.add [')'] else w
      appendArraySpecCode q isStatic arraySize w
termination_by decls => decls.length
decreasing_by
  all_goals first
    | exact Nat.lt_succ_self _
    | exact Nat.lt_succ_of_le (length_appendBasicType _ _)

/-! ## `appendDeclCode` -/

/-- The type under all layers, `canBeBottomType`. -/
inductive Bottom
  | base (qual : TypeQual) (baseTypeEnum : XcBaseTypeEnum)
  | tagged (qual : TypeQual) (header : TypeNameHeader) (tagName : Option Ident)

def XcType.bottom : XcType → Bottom
  | base q b => .base q b
  | tagged q header tagName => .tagged q header tagName
  | basic _ t => t.bottom
  | pointer _ t => t.bottom
  | array _ _ _ t => t.bottom
  | func _ _ _ _ _ t => t.bottom

/-- `appendTypeQualCode` and `appendTypeNameCode` of the bottom type. -/
def Bottom.append : Bottom → XmcWriter → XmcWriter
  | base q b, w => (appendTypeQualCode q w).addSpc b.getCCode
  | tagged q header tagName, w =>
    let w := (appendTypeQualCode q w).addSpc header.keyword.code
    match tagName with
    | some tag => w.addSpc tag.code
    | none => w

def XcType.appendStorage : XcType → XmcWriter → XmcWriter
  | func false isInline isStatic _ _ _, w =>
    let w := if isStatic then w.addSpc (Keyword.code .static) else w
    if isInline then w.addSpc (Keyword.code .inline) else w
  | _, w => w

/-- `appendDeclCode` of a type whose stack is `decls`. -/
def appendDecls (t : XcType) (decls : List Decl) (symbol : Option Ident) (w : XmcWriter) :
    XmcWriter :=
  let w := t.bottom.append (t.appendStorage w).spc
  if decls.isEmpty then
    match symbol with
    | some _ => appendCode symbol decls w
    | none => w
  else
    appendCode symbol decls w.spc

mutual

def XcType.decls : XcType → List Decl
  | .base _ _ => []
  | .tagged _ _ _ => []
  | .basic q t => t.decls ++ [.basic q]
  | .pointer q t => t.decls ++ [.pointer q]
  | .array q isStatic arraySize t => t.decls ++ [.array q isStatic arraySize]
  | .func isPrototype _ _ isEllipsised params t =>
    t.decls ++ [.func isPrototype params.isEmpty fun paramSymbol w =>
      let w := params.appendParams paramSymbol (w.add ['('])
      let w := if isEllipsised then w.add ", ...".toList else w
      w.add [')']]

/-- The loop of `appendArgs`. -/
def XcParamList.appendParams (paramSymbol : Bool) : XcParamList → XmcWriter → XmcWriter
  | .nil, w => w
  | .cons symbol t rest, w =>
    let w := appendDecls t t.decls (if paramSymbol then symbol else none) w
    rest.appendParams paramSymbol (if rest.isEmpty then w else w.add [','])

end

/-- `appendDeclCode(w, symbol, true, false)` -/
def XcType.appendDeclCode (t : XcType) (symbol : Option Ident) (w : XmcWriter) : XmcWriter :=
  appendDecls t t.decls symbol w

end OmniCompiler.CBack

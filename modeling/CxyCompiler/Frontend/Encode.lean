import Mathlib.Tactic.Common
import Mathlib.Algebra.Ring.Int.Defs
import Mathlib.Data.Int.Init
import Mathlib.Data.Nat.Notation

/-!
# The binary encoder of the AST (`frontend/encode.c`)

The encoder writes a tree as a flat sequence of msgpack items. The library is taken to pack and
unpack single objects faithfully, so a buffer is the sequence of the items packed into it, and an
array is its header followed by its elements.

* `AstNode` — the nodes of the tags that have an encoder, with the fields that are encoded.
* `binaryEncodeAstNode` — the encoder. It returns nothing where the source passes `NULL` to
  `strlen`.
* `balance` — the number of objects a sequence of items opens less those it closes;
  `balance_visit` — **a node closes more objects than it opens**, so that an array header with the
  number of nodes that follow it always finds that many objects.
-/

namespace CxyCompiler.Frontend.Codec

/-! ## Items -/

/-- The characters of a C string, without its terminator. -/
abbrev CString := List UInt8

/-- What one `msgpack_pack_…` call writes. Source: `msgpack/pack.h`. -/
inductive Item where
  | nil
  | uint (value : UInt64)
  | double (bits : UInt64)
  | str (bytes : CString)
  | array (count : ℕ)
  deriving DecidableEq, Repr

/-! ## Nodes -/

/-- Source: `ast.h` `AstTag`. -/
inductive AstTag where
  | error | noop | ref | deleted | comptimeOnly | list | closureCapture | program | metadata | cCode
  | define | attr | annotation | symbol | path | pathElem | substitution | genericParam | identifier
  | importEntity | destructorRef | typeRef | voidType | autoType | stringType | tupleType
  | arrayType | pointerType | referenceType | funcType | primitiveType | optionalType | resultType
  | literals | nullLit | boolLit | charLit | integerLit | floatLit | stringLit | asm | asmOperand
  | nodeArray | exception | tupleXform | literal
  | groupExpr | unaryExpr | pointerOf | referenceOf | binaryExpr | assignExpr | ternaryExpr
  | stmtExpr | stringExpr | typedExpr | castExpr | callExpr | macroCallExpr | closureExpr
  | arrayExpr | indexExpr | tupleExpr | fieldExpr | structExpr | memberExpr | rangeExpr | newExpr
  | spreadExpr | backendCall | aliasExpr | unionValueExpr
  | exprStmt | breakStmt | continueStmt | deferStmt | returnStmt | yieldStmt | blockStmt | ifStmt
  | forStmt | whileStmt | switchStmt | matchStmt | caseStmt
  | funcDecl | macroDecl | varDecl | varAlias | typeDecl | forwardDecl | unionDecl | structDecl
  | classDecl | interfaceDecl | moduleDecl | importDecl | pluginDecl | cxyPluginAction | enumDecl
  | fieldDecl | externDecl | genericDecl | funcParamDecl | enumOptionDecl | testDecl
  | branch | branchIf | basicBlock | phi | switchIr | gep
  deriving DecidableEq, Repr

/-- The number of a tag in the enumeration of the source. -/
def AstTag.code (t : AstTag) : ℕ := t.ctorIdx

/-- Source: `log.h` `FilePos`. -/
structure FilePos where
  row : UInt32
  col : UInt32
  byteOffset : UInt64
  deriving DecidableEq, Repr

/-- Source: `log.h` `FileLoc`. -/
structure FileLoc where
  fileName : CString
  start : FilePos
  stop : FilePos
  deriving DecidableEq, Repr

mutual

/-- A node: its flags, its location, its attributes and the fields of its tag.
Source: `ast.h` `AstNode`. -/
inductive AstNode where
  | mk (flags : UInt64) (loc : FileLoc) (attrs : List AstNode) (body : AstBody)

/-- The encoded fields, for each tag with an encoder. A child or a string may be `NULL`.
Source: `ast.h` `AstNode`. -/
inductive AstBody where
  | program (module : Option AstNode) (top decls : List AstNode)
  | error (message : Option CString)
  | noop
  | attr (name : Option CString) (args : List AstNode)
  | nullLit
  | boolLit (value : Bool)
  | charLit (value : UInt32)
  | integerLit (isNegative : Bool) (uValue : BitVec 128)
  | floatLit (bits : UInt64)
  | stringLit (value : Option CString)
  | stringExpr (parts : List AstNode)
  | define (names : List AstNode) (type container : Option AstNode)
  | importDecl (alias_ module : Option AstNode) (entities : List AstNode)
  | importEntity (name alias_ : Option CString)
  | moduleDecl (name : Option CString)
  | identifier (value alias_ : Option CString)
  | tupleType (elements : List AstNode)
  | tupleExpr (elements : List AstNode)
  | arrayType (elementType dim : Option AstNode)
  | funcType (ret : Option AstNode) (params : List AstNode)
  | optionalType (type : Option AstNode)
  | stringType
  | autoType
  | primitiveType (id : UInt8)
  | pointerType (pointed : Option AstNode)
  | referenceType (referred : Option AstNode)
  | arrayExpr (elements : List AstNode)
  | memberExpr (target member : Option AstNode)
  | rangeExpr (start stop step : Option AstNode)
  | newExpr (allocator expr : Option AstNode)
  | castExpr (to_ expr : Option AstNode)
  | indexExpr (target index : Option AstNode)
  | genericParam (name : Option CString) (constraints : List AstNode)
  | genericDecl (decl : Option AstNode) (params : List AstNode)
  | pathElem (args : List AstNode) (name alt : Option CString) (index : UInt16)
  | path (elements : List AstNode) (isType : Bool)
  | funcDecl (operatorOverload : UInt32) (index : UInt16) (name : Option CString)
      (params : List AstNode) (ret body : Option AstNode)
  | macroDecl (name : Option CString) (params : List AstNode) (body : Option AstNode)
  | funcParamDecl (name : Option CString) (type def_ : Option AstNode)
  | varDecl (names : List AstNode) (type init : Option AstNode)
  | typeDecl (name : Option CString) (aliased : Option AstNode)
  | unionDecl (members : List AstNode)
  | enumOptionDecl (name : Option CString) (value : Option AstNode)
  | enumDecl (name : Option CString) (base : Option AstNode) (options : List AstNode)
  | fieldDecl (name : Option CString) (type value : Option AstNode)
  | structDecl (name : Option CString) (members : List AstNode)
  | classDecl (name : Option CString) (base : Option AstNode) (members implements : List AstNode)
  | assignExpr (op : UInt32) (lhs rhs : Option AstNode)
  | binaryExpr (op : UInt32) (lhs rhs : Option AstNode)
  | unaryExpr (isPrefix : Bool) (op : UInt32) (operand : Option AstNode)
  | ternaryExpr (cond body otherwise : Option AstNode)
  | ifStmt (cond body otherwise : Option AstNode)
  | stmtExpr (stmt : Option AstNode)
  | typedExpr (type expr : Option AstNode)
  | callExpr (overload : UInt32) (callee : Option AstNode) (args : List AstNode)
  | macroCallExpr (overload : UInt32) (callee : Option AstNode) (args : List AstNode)
  | closureExpr (ret : Option AstNode) (params : List AstNode) (body : Option AstNode)
  | fieldExpr (name : Option CString) (value : Option AstNode)
  | structExpr (left : Option AstNode) (fields : List AstNode)
  | exprStmt (expr : Option AstNode)
  | deferStmt (expr : Option AstNode)
  | groupExpr (expr : Option AstNode)
  | breakStmt
  | continueStmt
  | returnStmt (expr : Option AstNode)
  | blockStmt (stmts : List AstNode)
  | forStmt (var range body : Option AstNode)
  | whileStmt (cond body : Option AstNode)
  | switchStmt (cond : Option AstNode) (cases : List AstNode)
  | caseStmt (match_ : Option AstNode) (body : List AstNode)

end

/-- The tag of a node with these fields. -/
def AstBody.tag : AstBody → AstTag
  | .program .. => .program
  | .error .. => .error
  | .noop => .noop
  | .attr .. => .attr
  | .nullLit => .nullLit
  | .boolLit .. => .boolLit
  | .charLit .. => .charLit
  | .integerLit .. => .integerLit
  | .floatLit .. => .floatLit
  | .stringLit .. => .stringLit
  | .stringExpr .. => .stringExpr
  | .define .. => .define
  | .importDecl .. => .importDecl
  | .importEntity .. => .importEntity
  | .moduleDecl .. => .moduleDecl
  | .identifier .. => .identifier
  | .tupleType .. => .tupleType
  | .tupleExpr .. => .tupleExpr
  | .arrayType .. => .arrayType
  | .funcType .. => .funcType
  | .optionalType .. => .optionalType
  | .stringType => .stringType
  | .autoType => .autoType
  | .primitiveType .. => .primitiveType
  | .pointerType .. => .pointerType
  | .referenceType .. => .referenceType
  | .arrayExpr .. => .arrayExpr
  | .memberExpr .. => .memberExpr
  | .rangeExpr .. => .rangeExpr
  | .newExpr .. => .newExpr
  | .castExpr .. => .castExpr
  | .indexExpr .. => .indexExpr
  | .genericParam .. => .genericParam
  | .genericDecl .. => .genericDecl
  | .pathElem .. => .pathElem
  | .path .. => .path
  | .funcDecl .. => .funcDecl
  | .macroDecl .. => .macroDecl
  | .funcParamDecl .. => .funcParamDecl
  | .varDecl .. => .varDecl
  | .typeDecl .. => .typeDecl
  | .unionDecl .. => .unionDecl
  | .enumOptionDecl .. => .enumOptionDecl
  | .enumDecl .. => .enumDecl
  | .fieldDecl .. => .fieldDecl
  | .structDecl .. => .structDecl
  | .classDecl .. => .classDecl
  | .assignExpr .. => .assignExpr
  | .binaryExpr .. => .binaryExpr
  | .unaryExpr .. => .unaryExpr
  | .ternaryExpr .. => .ternaryExpr
  | .ifStmt .. => .ifStmt
  | .stmtExpr .. => .stmtExpr
  | .typedExpr .. => .typedExpr
  | .callExpr .. => .callExpr
  | .macroCallExpr .. => .macroCallExpr
  | .closureExpr .. => .closureExpr
  | .fieldExpr .. => .fieldExpr
  | .structExpr .. => .structExpr
  | .exprStmt .. => .exprStmt
  | .deferStmt .. => .deferStmt
  | .groupExpr .. => .groupExpr
  | .breakStmt => .breakStmt
  | .continueStmt => .continueStmt
  | .returnStmt .. => .returnStmt
  | .blockStmt .. => .blockStmt
  | .forStmt .. => .forStmt
  | .whileStmt .. => .whileStmt
  | .switchStmt .. => .switchStmt
  | .caseStmt .. => .caseStmt

/-! ## The encoder -/

/-- Packing operations one after the other. -/
def inOrder : List (Option (List Item)) → Option (List Item)
  | [] => some []
  | p :: ps => do
      let items ← p
      let rest ← inOrder ps
      some (items ++ rest)

/-- Source: `encode.c` `packString`. -/
def packString (str : Option CString) : Option (List Item) := str.map fun str => [.str str]

/-- Every width of the library's unsigned integers is read back as the same kind of object. -/
def packUint (value : UInt64) : Option (List Item) := some [.uint value]

/-- `msgpack_pack_uint8` of a flag. -/
def packFlag (value : Bool) : Option (List Item) := packUint (if value then 1 else 0)

/-- Source: `encode.c` `nodePopulateFilePos`. -/
def nodePopulateFilePos (pos : FilePos) : List Item :=
  [.uint pos.row.toUInt64, .uint pos.col.toUInt64, .uint pos.byteOffset]

/-- Source: `encode.c` `nodePopulateLocation`. -/
def nodePopulateLocation (loc : FileLoc) : List Item :=
  nodePopulateFilePos loc.start ++ nodePopulateFilePos loc.stop

/-- The header of an array of nodes, and the nodes.
Source: `encode.c` `manyNodesToBinary`. -/
def packMany (count : ℕ) (nodes : Option (List Item)) : Option (List Item) :=
  inOrder [some [.array count], nodes]

mutual

/-- The visitor of a node: its header, which is the same for every tag, and its fields.
Source: `encode.c` `nodePackHeader`, `binaryEncodeAstNode`. -/
def visit : AstNode → Option (List Item)
  | .mk flags loc attrs body =>
      inOrder [packUint (UInt64.ofNat body.tag.code), packUint flags,
        some (nodePopulateLocation loc), packMany attrs.length (visitMany attrs), visitBody body]

/-- Source: `encode.c` `visitProgram`, …, `visitCaseStmt`. -/
def visitBody : AstBody → Option (List Item)
  | .program module top decls =>
      inOrder [nodeToBinary module, packMany top.length (visitMany top),
        packMany decls.length (visitMany decls)]
  | .error message => packString message
  | .noop | .stringType | .autoType | .breakStmt | .continueStmt => some []
  | .nullLit => some []
  | .boolLit value => packFlag value
  | .charLit value => packUint value.toUInt64
  | .integerLit isNegative uValue =>
      inOrder [packFlag isNegative, packUint (UInt64.ofBitVec (uValue.setWidth 64))]
  | .floatLit bits => some [.double bits]
  | .stringLit value => packString value
  | .attr name args => inOrder [packString name, packMany args.length (visitMany args)]
  | .stringExpr parts => packMany parts.length (visitMany parts)
  | .define names type container =>
      inOrder [packMany names.length (visitMany names), nodeToBinary type, nodeToBinary container]
  | .importDecl alias_ module entities =>
      inOrder [nodeToBinary alias_, nodeToBinary module,
        packMany entities.length (visitMany entities)]
  | .importEntity name alias_ => inOrder [packString name, packString alias_]
  | .moduleDecl name => packString name
  | .identifier value alias_ => inOrder [packString value, packString alias_]
  | .tupleType elements | .tupleExpr elements => packMany elements.length (visitMany elements)
  | .arrayType elementType dim => inOrder [nodeToBinary elementType, nodeToBinary dim]
  | .funcType ret params => inOrder [nodeToBinary ret, packMany params.length (visitMany params)]
  | .optionalType type => nodeToBinary type
  | .primitiveType id => packUint id.toUInt64
  | .pointerType pointed => nodeToBinary pointed
  | .referenceType referred => nodeToBinary referred
  | .arrayExpr elements => packMany elements.length (visitMany elements)
  | .memberExpr target member => inOrder [nodeToBinary target, nodeToBinary member]
  | .rangeExpr start stop step =>
      inOrder [nodeToBinary start, nodeToBinary stop, nodeToBinary step]
  | .newExpr allocator expr => inOrder [nodeToBinary allocator, nodeToBinary expr]
  | .castExpr to_ expr => inOrder [nodeToBinary to_, nodeToBinary expr]
  | .indexExpr target index => inOrder [nodeToBinary target, nodeToBinary index]
  -- of the constraints the first is packed, without a header
  | .genericParam name constraints => inOrder [packString name, firstToBinary constraints]
  | .genericDecl decl params =>
      inOrder [nodeToBinary decl, packMany params.length (visitMany params)]
  | .pathElem args name alt index =>
      inOrder [packMany args.length (visitMany args), packString name, packString alt,
        packUint index.toUInt64]
  | .path elements isType => inOrder
      [packMany elements.length (visitMany elements), packFlag isType]
  | .funcDecl operatorOverload index name params ret body =>
      inOrder [packUint operatorOverload.toUInt64, packUint index.toUInt64, packString name,
        packMany params.length (visitMany params), nodeToBinary ret, nodeToBinary body]
  | .macroDecl name params body =>
      inOrder [packString name, packMany params.length (visitMany params), nodeToBinary body]
  | .funcParamDecl name type def_ => inOrder [packString name, nodeToBinary type, nodeToBinary def_]
  | .varDecl names type init =>
      inOrder [packMany names.length (visitMany names), nodeToBinary type, nodeToBinary init]
  | .typeDecl name aliased => inOrder [packString name, nodeToBinary aliased]
  | .unionDecl members => packMany members.length (visitMany members)
  | .enumOptionDecl name value => inOrder [packString name, nodeToBinary value]
  | .enumDecl name base options =>
      inOrder [packString name, nodeToBinary base, packMany options.length (visitMany options)]
  | .fieldDecl name type value => inOrder [packString name, nodeToBinary type, nodeToBinary value]
  | .structDecl name members =>
      inOrder [packString name, packMany members.length (visitMany members)]
  | .classDecl name base members implements =>
      inOrder [packString name, nodeToBinary base, packMany members.length (visitMany members),
        packMany implements.length (visitMany implements)]
  -- the left operand is packed twice, the right one not at all
  | .assignExpr op lhs _ | .binaryExpr op lhs _ =>
      inOrder [packUint op.toUInt8.toUInt64, nodeToBinary lhs, nodeToBinary lhs]
  | .unaryExpr isPrefix op operand =>
      inOrder [packFlag isPrefix, packUint op.toUInt8.toUInt64, nodeToBinary operand]
  | .ternaryExpr cond body otherwise | .ifStmt cond body otherwise =>
      inOrder [nodeToBinary cond, nodeToBinary body, nodeToBinary otherwise]
  | .stmtExpr stmt => nodeToBinary stmt
  | .typedExpr type expr => inOrder [nodeToBinary type, nodeToBinary expr]
  | .callExpr overload callee args | .macroCallExpr overload callee args =>
      inOrder [packUint overload.toUInt64, nodeToBinary callee,
        packMany args.length (visitMany args)]
  | .closureExpr ret params body =>
      inOrder [nodeToBinary ret, packMany params.length (visitMany params), nodeToBinary body]
  | .fieldExpr name value => inOrder [packString name, nodeToBinary value]
  | .structExpr left fields =>
      inOrder [nodeToBinary left, packMany fields.length (visitMany fields)]
  | .exprStmt expr | .deferStmt expr | .groupExpr expr => nodeToBinary expr
  | .returnStmt expr => nodeToBinary expr
  | .blockStmt stmts => packMany stmts.length (visitMany stmts)
  | .forStmt var range body => inOrder [nodeToBinary var, nodeToBinary range, nodeToBinary body]
  | .whileStmt cond body => inOrder [nodeToBinary cond, nodeToBinary body]
  | .switchStmt cond cases => inOrder [nodeToBinary cond, packMany cases.length (visitMany cases)]
  | .caseStmt match_ body => inOrder [nodeToBinary match_, packMany body.length (visitMany body)]

/-- Source: `encode.c` `nodeToBinary`. -/
def nodeToBinary : Option AstNode → Option (List Item)
  | some node => visit node
  | none => some [.nil]

/-- `nodeToBinary` of a list. Source: `encode.c` `nodeToBinary`. -/
def firstToBinary : List AstNode → Option (List Item)
  | node :: _ => visit node
  | [] => some [.nil]

/-- The loop of `manyNodesToBinary`. Source: `encode.c` `manyNodesToBinary`. -/
def visitMany : List AstNode → Option (List Item)
  | [] => some []
  | node :: nodes => inOrder [visit node, visitMany nodes]

end

/-- Source: `encode.c` `binaryEncodeAstNode`. -/
def binaryEncodeAstNode (node : AstNode) : Option (List Item) :=
  match node with
  | .mk _ loc _ _ => inOrder [packString (some loc.fileName), visit node]

/-! ## Objects opened and closed -/

/-- The objects an item opens less the one it closes: a header of an array waits for its
elements. -/
def Item.balance : Item → ℤ
  | .array count => count - 1
  | _ => -1

def balance (items : List Item) : ℤ := (items.map Item.balance).sum

/-- What is packed, if anything, has at most the given balance. -/
def AtMost (bound : ℤ) (p : Option (List Item)) : Prop := ∀ items, p = some items →
  balance items ≤ bound

theorem AtMost.mono {a b : ℤ} {p : Option (List Item)} (hp : AtMost a p) (hab : a ≤ b) :
    AtMost b p := fun items hitems => Int.le_trans (hp items hitems) hab

@[simp] theorem balance_append (l r : List Item) : balance (l ++ r) = balance l + balance r := by
  simp [balance]

theorem AtMost.inOrder_cons {a b : ℤ} {p : Option (List Item)} {ps : List (Option (List Item))}
    (hp : AtMost a p) (hps : AtMost b (inOrder ps)) : AtMost (a + b) (inOrder (p :: ps)) := by
  intro items hitems
  rw [inOrder] at hitems
  obtain ⟨first, hfirst, hitems⟩ := Option.bind_eq_some_iff.mp hitems
  obtain ⟨rest, hrest, hitems⟩ := Option.bind_eq_some_iff.mp hitems
  cases hitems
  rw [balance_append]
  exact Int.add_le_add (hp first hfirst) (hps rest hrest)

theorem atMost_nil : AtMost 0 (inOrder []) := by
  intro items hitems
  cases hitems
  simp [balance]

theorem AtMost.inOrder {ps : List (Option (List Item))} (hps : ∀ p ∈ ps, AtMost 0 p) :
    AtMost 0 (inOrder ps) := by
  induction ps with
  | nil => exact atMost_nil
  | cons p ps ih =>
      have hp := hps p List.mem_cons_self
      exact (hp.inOrder_cons (ih fun q hq => hps q (List.mem_cons_of_mem _ hq))).mono (by simp)

@[simp] theorem atMost_some {bound : ℤ} {items : List Item} :
    AtMost bound (some items) ↔ balance items ≤ bound := by
  simp [AtMost]

theorem AtMost.packMany {count : ℕ} {nodes : Option (List Item)} (hnodes : AtMost (-count) nodes) :
    AtMost 0 (packMany count nodes) := by
  have hheader : AtMost (count - 1) (some [Item.array count]) := by
    simp [balance, Item.balance]
  exact (hheader.inOrder_cons (hnodes.inOrder_cons atMost_nil)).mono (by omega)

@[simp] theorem atMost_packUint (value : UInt64) : AtMost 0 (packUint value) := by
  simp [packUint, balance, Item.balance]

@[simp] theorem atMost_packFlag (value : Bool) : AtMost 0 (packFlag value) := atMost_packUint _

@[simp] theorem atMost_packString (str : Option CString) : AtMost 0 (packString str) := by
  intro items hitems
  obtain ⟨str, -, rfl⟩ := Option.map_eq_some_iff.mp hitems
  simp [balance, Item.balance]

mutual

/-- **A node closes more objects than it opens.** Kind: P -/
theorem balance_visit : ∀ node : AstNode, AtMost (-1) (visit node)
  | .mk flags loc attrs body => by
      have htag : AtMost (-1) (packUint (UInt64.ofNat body.tag.code)) := by
        simp [packUint, balance, Item.balance]
      have hloc : AtMost 0 (some (nodePopulateLocation loc)) := by
        simp [nodePopulateLocation, nodePopulateFilePos, balance, Item.balance]
      have hrest : AtMost 0 (inOrder [packUint flags, some (nodePopulateLocation loc),
          packMany attrs.length (visitMany attrs), visitBody body]) := AtMost.inOrder (by
        simp [hloc, (balance_visitMany attrs).packMany, balance_visitBody body])
      rw [visit]
      exact (htag.inOrder_cons hrest).mono (by simp)

theorem balance_visitBody (body : AstBody) : AtMost 0 (visitBody body) := by
  cases body
  all_goals simp [visitBody, AtMost.inOrder, AtMost.packMany, balance_visitMany,
    balance_nodeToBinary, balance_firstToBinary, balance, Item.balance]

theorem balance_nodeToBinary : ∀ node : Option AstNode, AtMost 0 (nodeToBinary node)
  | some node => (balance_visit node).mono (by simp)
  | none => by simp [nodeToBinary, balance, Item.balance]

theorem balance_firstToBinary : ∀ nodes : List AstNode, AtMost 0 (firstToBinary nodes)
  | node :: _ => (balance_visit node).mono (by simp)
  | [] => by simp [firstToBinary, balance, Item.balance]

theorem balance_visitMany : ∀ nodes : List AstNode, AtMost (-nodes.length) (visitMany nodes)
  | [] => atMost_nil
  | node :: nodes => by
      rw [visitMany]
      refine ((balance_visit node).inOrder_cons
        ((balance_visitMany nodes).inOrder_cons atMost_nil)).mono ?_
      rw [List.length_cons]
      push_cast
      omega

end

end CxyCompiler.Frontend.Codec

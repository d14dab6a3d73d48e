import CxyCompiler.Frontend.Encode

/-!
# The binary decoder of the AST (`frontend/decode.c`)

* `unpackNext` — `msgpack_unpack_next`: it reads one whole object, an array with its elements, and
  leaves the last object in place where it fails.
* `unpackNode`, `unpackManyNodes`, `unpackNodeBody` — the decoder, with `fuel` for its recursion.
  `none` is an abort: a failed assertion or an access through `NULL`.
* `unpackManyNodes_array` — an array header is never read as the count the decoder asks for.
* `encode_decode_fails` — **no encoded node is decoded**, whichever pools the decoder is given; and
  `binaryDecodeAstNode` gives it none.
-/

namespace CxyCompiler.Frontend.Codec

/-! ## Reading objects -/

/-- The kinds of object, as far as the decoder tells them apart. Source: `msgpack/object.h`
`msgpack_object`. -/
inductive Object where
  | nil
  | boolean (value : Bool)
  | positiveInteger (value : UInt64)
  | float (bits : UInt64)
  | str (bytes : CString)
  | array
  deriving DecidableEq, Repr

/-- The buffer from the offset on, the last object with whether a zone was allocated for it, the
file name, and whether the context has a string pool and a memory pool.
Source: `decode.c` `AstNodeUnpackContext`. -/
structure UnpackContext where
  items : List Item
  data : Object
  zone : Bool
  fname : CString
  strPool : Bool
  pool : Bool

/-- Pass over objects: an array leaves its elements to be passed over. -/
def skipObjects : List Item → ℕ → Option (List Item)
  | items, 0 => some items
  | [], _ + 1 => none
  | .array count :: items, n + 1 => skipObjects items (n + count)
  | _ :: items, n + 1 => skipObjects items n

/-- The object is cleared where a zone was allocated for it. Source: `msgpack/unpack.h`
`msgpack_unpacked_destroy`. -/
def UnpackContext.destroy (ctx : UnpackContext) : UnpackContext :=
  if ctx.zone then { ctx with data := .nil, zone := false } else ctx

/-- An object was read. -/
def UnpackContext.read (ctx : UnpackContext) (items : List Item) (data : Object) (zone : Bool) :
    UnpackContext :=
  { ctx with items := items, data := data, zone := zone }

/-- Where the buffer ends before the object, the result is the object that was there.
Source: `msgpack/unpack.c` `msgpack_unpack_next`. -/
def unpackNext (ctx : UnpackContext) : Bool × UnpackContext :=
  let ctx := ctx.destroy
  match ctx.items with
  | [] => (false, ctx)
  | .nil :: items => (true, ctx.read items .nil false)
  | .uint value :: items => (true, ctx.read items (.positiveInteger value) false)
  | .double bits :: items => (true, ctx.read items (.float bits) false)
  | .str bytes :: items => (true, ctx.read items (.str bytes) true)
  | .array count :: items =>
      match skipObjects items count with
      | some items => (true, ctx.read items .array true)
      | none => (false, { ctx with items := [], zone := true })

/-- A reader; it returns nothing where the source aborts. -/
abbrev Unpack := StateT UnpackContext Option

@[simp] theorem failure_apply {α : Type} (ctx : UnpackContext) :
    (failure : Unpack α) ctx = none := rfl

theorem pure_apply {α : Type} (a : α) (ctx : UnpackContext) :
    (pure a : Unpack α) ctx = some (a, ctx) := rfl

theorem set_apply (ctx ctx' : UnpackContext) :
    (set ctx' : Unpack PUnit) ctx = some (PUnit.unit, ctx') := rfl

/-- `msgpack_unpack_next` with its result ignored. -/
def unpackData : Unpack Object := fun ctx =>
  let ctx := (unpackNext ctx).2
  some (ctx.data, ctx)

/-- Source: `decode.c` `unpackU64`. -/
def unpackU64 : Unpack UInt64 := do
  let .positiveInteger value ← unpackData | failure
  return value

/-- Source: `decode.c` `unpackFloat`. -/
def unpackFloat : Unpack UInt64 := do
  let .float bits ← unpackData | failure
  return bits

/-- Source: `decode.c` `unpackBool`. -/
def unpackBool : Unpack Bool := do
  let .boolean value ← unpackData | failure
  return value

/-- Source: `decode.c` `unpackNull`. -/
def unpackNull : Unpack Unit := do
  let .nil ← unpackData | failure
  return ()

/-- The string is interned, which reads the string pool.
Source: `decode.c` `unpackString`. -/
def unpackString : Unpack CString := do
  let .str bytes ← unpackData | failure
  let ctx ← get
  if ctx.strPool then return bytes else failure

/-- Source: `decode.c` `unpackPosition`. -/
def unpackPosition : Unpack FilePos := do
  let row ← unpackU64
  let col ← unpackU64
  let byteOffset ← unpackU64
  return ⟨row.toUInt32, col.toUInt32, byteOffset⟩

/-! ## The decoder -/

/-- The links of `unpackManyNodes`: leading `NULL`s are dropped, and a node after a later `NULL` is
linked through it. Source: `decode.c` `unpackManyNodes`. -/
def linkNodes : List (Option AstNode) → Option (List AstNode)
  | [] => some []
  | none :: nodes => linkNodes nodes
  | some node :: nodes => do
      let rest ← linked nodes
      some (node :: rest)
where
  /-- The links after a first node. -/
  linked : List (Option AstNode) → Option (List AstNode)
    | [] => some []
    | [none] => some []
    | none :: _ => none
    | some node :: nodes => do
        let rest ← linked nodes
        some (node :: rest)

/-- The count of a list of nodes. Source: `decode.c` `unpackManyNodes`. -/
def unpackCount : Unpack ℕ := do
  let count ← unpackU64
  return count.toNat

/-- The string of a field; it is not `NULL`. -/
def unpackField : Unpack (Option CString) := do
  let str ← unpackString
  return some str

mutual

/-- Source: `decode.c` `unpackNode`. -/
def unpackNode : ℕ → Unpack (Option AstNode)
  | 0 => failure
  | fuel + 1 => do
      let ctx ← get
      let (success, ctx) := unpackNext ctx
      set ctx
      if !success then failure
      match ctx.data with
      | .nil => return none
      | .positiveInteger tag => do
          if !ctx.pool then failure
          let flags ← unpackU64
          let start ← unpackPosition
          let stop ← unpackPosition
          let attrs ← unpackManyNodes fuel
          -- a number that is no tag has no case in the switch, like the last tag
          let body ← unpackNodeBody fuel (AstTag.ofNat tag.toUInt32.toNat)
          return some (.mk flags ⟨ctx.fname, start, stop⟩ attrs body)
      | _ => failure

/-- Source: `decode.c` `unpackManyNodes`. -/
def unpackManyNodes : ℕ → Unpack (List AstNode)
  | 0 => failure
  | fuel + 1 => do
      let count ← unpackCount
      let nodes ← unpackLoop fuel count
      match linkNodes nodes with
      | some nodes => return nodes
      | none => failure

/-- The loop of `unpackManyNodes`. Source: `decode.c` `unpackManyNodes`. -/
def unpackLoop : ℕ → ℕ → Unpack (List (Option AstNode))
  | 0, _ => failure
  | _ + 1, 0 => return []
  | fuel + 1, count + 1 => do
      let node ← unpackNode fuel
      let nodes ← unpackLoop fuel count
      return node :: nodes

/-- Source: `decode.c` `unpackNodeBody`. -/
def unpackNodeBody : ℕ → AstTag → Unpack AstBody
  | 0, _ => failure
  | fuel + 1, tag =>
      match tag with
      | .noop => return .noop
      | .stringType => return .stringType
      | .autoType => return .autoType
      | .continueStmt => return .continueStmt
      | .breakStmt => return .breakStmt
      | .nullLit => do unpackNull; return .nullLit
      | .boolLit => return .boolLit (← unpackBool)
      | .charLit => return .charLit (← unpackU64).toUInt32
      | .integerLit => do
          let isNegative ← unpackBool
          let uValue ← unpackU64
          return .integerLit isNegative (uValue.toBitVec.setWidth 128)
      | .floatLit => return .floatLit (← unpackFloat)
      | .stringLit => return .stringLit (← unpackField)
      | .error => return .error (← unpackField)
      | .attr => return .attr (← unpackField) (← unpackManyNodes fuel)
      | .define => return .define (← unpackManyNodes fuel) (← unpackNode fuel) (← unpackNode fuel)
      -- the entities are read as one node
      | .importDecl =>
          return .importDecl (← unpackNode fuel) (← unpackNode fuel) (← unpackNode fuel).toList
      | .importEntity => return .importEntity (← unpackField) (← unpackField)
      | .moduleDecl => return .moduleDecl (← unpackField)
      | .identifier => return .identifier (← unpackField) (← unpackField)
      | .tupleType => return .tupleType (← unpackManyNodes fuel)
      | .tupleExpr => return .tupleExpr (← unpackManyNodes fuel)
      | .arrayType => return .arrayType (← unpackNode fuel) (← unpackNode fuel)
      | .funcType => return .funcType (← unpackNode fuel) (← unpackManyNodes fuel)
      | .optionalType => return .optionalType (← unpackNode fuel)
      | .primitiveType => return .primitiveType (← unpackU64).toUInt8
      | .pointerType => return .pointerType (← unpackNode fuel)
      | .referenceType => return .referenceType (← unpackNode fuel)
      | .arrayExpr => return .arrayExpr (← unpackManyNodes fuel)
      | .memberExpr => return .memberExpr (← unpackNode fuel) (← unpackNode fuel)
      | .rangeExpr =>
          return .rangeExpr (← unpackNode fuel) (← unpackNode fuel) (← unpackNode fuel)
      | .newExpr => return .newExpr (← unpackNode fuel) (← unpackNode fuel)
      | .castExpr => return .castExpr (← unpackNode fuel) (← unpackNode fuel)
      | .indexExpr => return .indexExpr (← unpackNode fuel) (← unpackNode fuel)
      | .genericParam => return .genericParam (← unpackField) (← unpackManyNodes fuel)
      | .genericDecl => do
          let decl ← unpackNode fuel
          let _ ← unpackManyNodes fuel
          -- the case falls through to the next, whose arguments overlay the parameters
          let params ← unpackManyNodes fuel
          let _ ← unpackString
          let _ ← unpackString
          let _ ← unpackU64
          return .genericDecl decl params
      | .pathElem =>
          return .pathElem (← unpackManyNodes fuel) (← unpackField) (← unpackField)
            (← unpackU64).toUInt16
      | .path => return .path (← unpackManyNodes fuel) (← unpackBool)
      | .funcDecl => do
          let operatorOverload ← unpackU64
          let index ← unpackU64
          return .funcDecl operatorOverload.toUInt32 index.toUInt16 (← unpackField)
            (← unpackManyNodes fuel) (← unpackNode fuel) (← unpackNode fuel)
      | .macroDecl =>
          return .macroDecl (← unpackField) (← unpackManyNodes fuel) (← unpackNode fuel)
      | .funcParamDecl =>
          return .funcParamDecl (← unpackField) (← unpackNode fuel) (← unpackNode fuel)
      | .varDecl =>
          return .varDecl (← unpackManyNodes fuel) (← unpackNode fuel) (← unpackNode fuel)
      | .typeDecl => return .typeDecl (← unpackField) (← unpackNode fuel)
      | .unionDecl => return .unionDecl (← unpackManyNodes fuel)
      | .enumOptionDecl => return .enumOptionDecl (← unpackField) (← unpackNode fuel)
      | .enumDecl =>
          return .enumDecl (← unpackField) (← unpackNode fuel) (← unpackManyNodes fuel)
      | .fieldDecl => return .fieldDecl (← unpackField) (← unpackNode fuel) (← unpackNode fuel)
      | .structDecl => return .structDecl (← unpackField) (← unpackManyNodes fuel)
      | .classDecl =>
          return .classDecl (← unpackField) (← unpackNode fuel) (← unpackManyNodes fuel)
            (← unpackManyNodes fuel)
      | .binaryExpr => do
          let op ← unpackU64
          let _ ← unpackNode fuel
          let lhs ← unpackNode fuel
          -- the right operand is not set; its memory is not cleared either
          return .binaryExpr op.toUInt32 lhs none
      | .unaryExpr => do
          let isPrefix ← unpackU64
          let op ← unpackU64
          return .unaryExpr (isPrefix != 0) op.toUInt32 (← unpackNode fuel)
      | .ternaryExpr =>
          return .ternaryExpr (← unpackNode fuel) (← unpackNode fuel) (← unpackNode fuel)
      | .ifStmt => return .ifStmt (← unpackNode fuel) (← unpackNode fuel) (← unpackNode fuel)
      | .stmtExpr => return .stmtExpr (← unpackNode fuel)
      | .typedExpr => return .typedExpr (← unpackNode fuel) (← unpackNode fuel)
      | .callExpr => do
          let overload ← unpackU64
          return .callExpr overload.toUInt32 (← unpackNode fuel) (← unpackManyNodes fuel)
      | .closureExpr =>
          return .closureExpr (← unpackNode fuel) (← unpackManyNodes fuel) (← unpackNode fuel)
      | .fieldExpr => return .fieldExpr (← unpackField) (← unpackNode fuel)
      | .structExpr => return .structExpr (← unpackNode fuel) (← unpackManyNodes fuel)
      | .exprStmt => return .exprStmt (← unpackNode fuel)
      | .deferStmt => return .deferStmt (← unpackNode fuel)
      | .groupExpr => return .groupExpr (← unpackNode fuel)
      | .returnStmt => return .returnStmt (← unpackNode fuel)
      | .blockStmt => return .blockStmt (← unpackManyNodes fuel)
      | .forStmt => return .forStmt (← unpackNode fuel) (← unpackNode fuel) (← unpackNode fuel)
      | .whileStmt => return .whileStmt (← unpackNode fuel) (← unpackNode fuel)
      -- the cases of a switch and the body of a case are read as one node
      | .switchStmt => return .switchStmt (← unpackNode fuel) (← unpackNode fuel).toList
      | .caseStmt => return .caseStmt (← unpackNode fuel) (← unpackNode fuel).toList
      | _ => failure

end

/-- The decoder with or without its pools. -/
def decodeWith (strPool pool : Bool) (fuel : ℕ) (items : List Item) : Option (Option AstNode) :=
  (do
    let fname ← unpackString
    modify fun ctx => { ctx with fname := fname }
    unpackNode fuel : Unpack (Option AstNode)).run' ⟨items, .nil, false, [], strPool, pool⟩

/-- The context has no pools: `strPool` and `pool` are `NULL`.
Source: `decode.c` `binaryDecodeAstNode`. -/
def binaryDecodeAstNode (fuel : ℕ) (items : List Item) : Option (Option AstNode) :=
  decodeWith false false fuel items

/-! ## Array headers -/

/-- Where the items close as many objects as are waited for, the objects can be passed over.
Kind: L -/
theorem skipObjects_of_balance (items : List Item) (rest : List Item) : ∀ n : ℕ,
    n + balance items ≤ 0 → ∃ rest', skipObjects (items ++ rest) n = some rest' := by
  induction items with
  | nil =>
      intro n hn
      have : n = 0 := by
        simp only [balance, List.map_nil, List.sum_nil] at hn
        omega
      subst this
      exact ⟨rest, by cases rest <;> rfl⟩
  | cons item items ih =>
      intro n hn
      cases n with
      | zero => exact ⟨item :: items ++ rest, rfl⟩
      | succ n =>
          have hcons : balance (item :: items) = item.balance + balance items := by simp [balance]
          rw [hcons] at hn
          cases item with
          | array count =>
              refine ih (n + count) ?_
              simp only [Item.balance] at hn
              omega
          | nil | uint _ | double _ | str _ =>
              refine ih n ?_
              simp only [Item.balance] at hn
              omega

theorem destroy_items (ctx : UnpackContext) : ctx.destroy.items = ctx.items := by
  unfold UnpackContext.destroy
  split_ifs <;> rfl

/-- **A list of nodes is not read back**: its header is an array, and the decoder asks for a
number. Kind: P -/
theorem unpackManyNodes_array {nodes : List AstNode} {items rest : List Item}
    (hnodes : visitMany nodes = some items) {ctx : UnpackContext}
    (hctx : ctx.items = .array nodes.length :: (items ++ rest)) (fuel : ℕ) :
    unpackManyNodes fuel ctx = none := by
  have hbalance := balance_visitMany nodes items hnodes
  obtain ⟨rest', hskip⟩ := skipObjects_of_balance items rest nodes.length (by omega)
  have hdata : unpackData ctx = some (.array, ctx.destroy.read rest' .array true) := by
    simp only [unpackData, unpackNext, destroy_items, hctx, hskip]
    rfl
  cases fuel with
  | zero => rfl
  | succ fuel =>
      have hcount : unpackCount ctx = none := by
        simp only [unpackCount, unpackU64, bind, StateT.bind, hdata]
        rfl
      simp only [unpackManyNodes, bind, StateT.bind, hcount]
      rfl

/-! ## The header of a node -/

/-- A read that returns a value and leaves the rest of the items. -/
def Reads {α : Type} (x : Unpack α) (value : α) (ctx : UnpackContext) (items : List Item) : Prop :=
  ∃ ctx', x ctx = some (value, ctx') ∧ ctx'.items = items

theorem unpackNext_uint {ctx : UnpackContext} {value : UInt64} {items : List Item}
    (hctx : ctx.items = .uint value :: items) :
    ∃ ctx', unpackNext ctx = (true, ctx') ∧ ctx'.data = .positiveInteger value ∧
      ctx'.items = items := by
  refine ⟨ctx.destroy.read items (.positiveInteger value) false, ?_, rfl, rfl⟩
  simp only [unpackNext, destroy_items, hctx]

theorem reads_unpackU64 {ctx : UnpackContext} {value : UInt64} {items : List Item}
    (hctx : ctx.items = .uint value :: items) : Reads unpackU64 value ctx items := by
  obtain ⟨ctx', hnext, hdata, hitems⟩ := unpackNext_uint hctx
  refine ⟨ctx', ?_, hitems⟩
  simp only [unpackU64, unpackData, bind, StateT.bind, hnext, hdata, Option.bind_some]
  rfl

theorem reads_unpackPosition {ctx : UnpackContext} {pos : FilePos} {items : List Item}
    (hctx : ctx.items = nodePopulateFilePos pos ++ items) :
    Reads unpackPosition pos ctx items := by
  obtain ⟨ctx₁, hrow, hitems₁⟩ := reads_unpackU64 hctx
  obtain ⟨ctx₂, hcol, hitems₂⟩ := reads_unpackU64 hitems₁
  obtain ⟨ctx₃, hoffset, hitems₃⟩ := reads_unpackU64 hitems₂
  refine ⟨ctx₃, ?_, hitems₃⟩
  simp only [unpackPosition, bind, StateT.bind, hrow, hcol, hoffset, Option.bind_some]
  simp [pure_apply]

theorem inOrder_cons_eq_some {p : Option (List Item)} {ps : List (Option (List Item))}
    {items : List Item} (hitems : inOrder (p :: ps) = some items) :
    ∃ first rest, p = some first ∧ inOrder ps = some rest ∧ items = first ++ rest := by
  rw [inOrder] at hitems
  obtain ⟨first, hfirst, hitems⟩ := Option.bind_eq_some_iff.mp hitems
  obtain ⟨rest, hrest, hitems⟩ := Option.bind_eq_some_iff.mp hitems
  cases hitems
  exact ⟨first, rest, hfirst, hrest, rfl⟩

/-- What a node is encoded to begins with its tag, its flags, its location and the header of its
attributes. Kind: L -/
theorem visit_eq_some {flags : UInt64} {loc : FileLoc} {attrs : List AstNode} {body : AstBody}
    {items : List Item} (hitems : visit (.mk flags loc attrs body) = some items) :
    ∃ nodes rest, visitMany attrs = some nodes ∧
      items = .uint (UInt64.ofNat body.tag.code) :: .uint flags ::
        (nodePopulateFilePos loc.start ++ (nodePopulateFilePos loc.stop ++
          Item.array attrs.length :: (nodes ++ rest))) := by
  rw [visit] at hitems
  obtain ⟨tag, rest₁, htag, hrest₁, rfl⟩ := inOrder_cons_eq_some hitems
  obtain ⟨flag, rest₂, hflag, hrest₂, rfl⟩ := inOrder_cons_eq_some hrest₁
  obtain ⟨pos, rest₃, hpos, hrest₃, rfl⟩ := inOrder_cons_eq_some hrest₂
  obtain ⟨many, rest₄, hmany, -, rfl⟩ := inOrder_cons_eq_some hrest₃
  obtain ⟨header, nodes, hheader, hnodes, rfl⟩ := inOrder_cons_eq_some hmany
  obtain ⟨nodes', last, hnodes', hlast, rfl⟩ := inOrder_cons_eq_some hnodes
  cases htag
  cases hflag
  cases hpos
  cases hheader
  cases hlast
  exact ⟨nodes', rest₄, hnodes', by simp [nodePopulateLocation]⟩

/-- No encoded node is decoded. Kind: P -/
theorem unpackNode_visit {node : AstNode} {items : List Item} (hitems : visit node = some items)
    {ctx : UnpackContext} (hctx : ctx.items = items) (fuel : ℕ) : unpackNode fuel ctx = none := by
  obtain ⟨flags, loc, attrs, body⟩ := node
  obtain ⟨nodes, rest, hnodes, rfl⟩ := visit_eq_some hitems
  cases fuel with
  | zero => rfl
  | succ fuel =>
      obtain ⟨ctx₀, hnext, hdata, hitems₀⟩ := unpackNext_uint hctx
      obtain ⟨ctx₁, hflags, hitems₁⟩ := reads_unpackU64 hitems₀
      obtain ⟨ctx₂, hstart, hitems₂⟩ := reads_unpackPosition hitems₁
      obtain ⟨ctx₃, hstop, hitems₃⟩ := reads_unpackPosition hitems₂
      have hattrs := unpackManyNodes_array hnodes hitems₃ fuel
      cases hpool : ctx₀.pool
      all_goals
        simp [unpackNode, bind, StateT.bind, hnext, hdata, hpool, get, getThe, MonadStateOf.get,
          StateT.get, set_apply, hflags, hstart, hstop, hattrs]

/-! ## The round trip -/

theorem decodeWith_encode {node : AstNode} {items : List Item}
    (hitems : binaryEncodeAstNode node = some items) (strPool pool : Bool) (fuel : ℕ) :
    decodeWith strPool pool fuel items = none := by
  obtain ⟨flags, loc, attrs, body⟩ := node
  obtain ⟨name, rest, hname, hrest, rfl⟩ := inOrder_cons_eq_some hitems
  obtain ⟨nodes, last, hnodes, hlast, rfl⟩ := inOrder_cons_eq_some hrest
  cases hname
  cases hlast
  -- the file name is read where there is a string pool; the node is not read in either case
  have hnode : ∀ ctx : UnpackContext, ctx.items = nodes ++ [] → unpackNode fuel ctx = none := by
    intro ctx hctx
    rw [List.append_nil] at hctx
    exact unpackNode_visit hnodes hctx fuel
  cases strPool with
  | false => rfl
  | true =>
      have hstr : unpackString ⟨.str loc.fileName :: (nodes ++ []), .nil, false, [], true, pool⟩ =
          some (loc.fileName, ⟨nodes ++ [], .str loc.fileName, true, [], true, pool⟩) := rfl
      simp only [decodeWith, StateT.run', bind, StateT.bind, List.singleton_append, hstr,
        Option.bind_some, modify, modifyGet, MonadStateOf.modifyGet, StateT.modifyGet, pure]
      rw [hnode _ rfl]
      rfl

/-- The encoder succeeds on the node, and the decoder gives it back. -/
def RoundTrips (node : AstNode) : Prop :=
  ∃ items fuel, binaryEncodeAstNode node = some items ∧
    binaryDecodeAstNode fuel items = some (some node)

theorem not_roundTrips (node : AstNode) : ¬ RoundTrips node := by
  rintro ⟨items, fuel, hitems, hdecode⟩
  rw [binaryDecodeAstNode, decodeWith_encode hitems] at hdecode
  simp at hdecode

/-- **No node makes the round trip.** The decoder aborts on whatever the encoder packs, also where
it is given the pools that `binaryDecodeAstNode` leaves out. Kind: P -/
theorem encode_decode_fails (node : AstNode) :
    ¬ RoundTrips node ∧ ∀ strPool pool fuel,
      (binaryEncodeAstNode node).bind (decodeWith strPool pool fuel) = none := by
  refine ⟨not_roundTrips node, fun strPool pool fuel => ?_⟩
  cases hitems : binaryEncodeAstNode node with
  | none => rfl
  | some items => exact decodeWith_encode hitems strPool pool fuel

/-- `break` in a file `a.cxy`, without attributes. -/
def breakNode : AstNode :=
  .mk 0 ⟨[97, 46, 99, 120, 121], ⟨1, 1, 0⟩, ⟨1, 6, 5⟩⟩ [] .breakStmt

/-- The statement `break` is packed, and its packing is not decoded. Kind: L -/
theorem breakNode_not_decoded :
    binaryEncodeAstNode breakNode = some [.str [97, 46, 99, 120, 121], .uint 73, .uint 0, .uint 1,
      .uint 1, .uint 0, .uint 1, .uint 6, .uint 5, .array 0] ∧ ¬ RoundTrips breakNode :=
  ⟨by decide, not_roundTrips breakNode⟩

end CxyCompiler.Frontend.Codec

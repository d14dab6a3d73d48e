import CxyCompiler.Lib.Numeral
import CxyCompiler.Runtime.String

/-!
# The redis client (`stdlib/redis.cxy`)

A client sends a command and reads the replies from a socket: lines up to `\r\n`, counted strings,
and counted arrays of replies, whose scalars go into one response.

* `receive` — what the socket gives: the bytes that have arrived, up to a size.
* `receiveLine`, `receiveLen`, `receiveReply`, `receiveReplies` — the reader.
* `Message`, `encode`, `scalars` — replies, their bytes and the scalars in them.
* `Framed` — no string is empty or nil, and each arrives in one piece.
* `receiveReplies_iff` — **pipelined replies are read to the end of the last one, with the scalars
  that they have, if and only if they are `Framed`**.
* `commands_injective` — **the bytes of pipelined commands determine the commands**.
-/

namespace CxyCompiler.Stdlib.Redis

open CxyCompiler.Lib CxyCompiler.Lib.Numeral

/-! ## The socket -/

abbrev Bytes := List UInt8

/-- The bytes that are to be read, each with whether it comes only when those before it have been
read. -/
abbrev Wire := List (UInt8 × Bool)

def Wire.bytes (w : Wire) : Bytes := w.map Prod.fst

/-- The bytes that are there, after a wait where there are none. Without bytes the time runs out, or
the peer has closed. Source: `tcp.cxy` `TcpSocket.receive`. -/
def receive : ℕ → Wire → Option Bytes × Wire
  | 0, w => (some [], w)
  | _ + 1, [] => (none, [])
  | n + 1, b :: w =>
      let more := min n (w.takeWhile fun c => !c.2).length
      (some (b.1 :: Wire.bytes (w.take more)), w.drop more)

/-! ## The reader -/

/-- What a function returns or raises; `undefined` is a failing assertion or an access outside of a
block. -/
inductive Result (α : Type) where
  | done (a : α)
  | raised (message : String)
  | undefined
  | endless

def Result.bind {α β : Type} : Result α → (α → Result β) → Result β
  | .done a, f => f a
  | .raised message, _ => .raised message
  | .undefined, _ => .undefined
  | .endless, _ => .endless

instance : Monad Result where
  pure := Result.done
  bind := Result.bind

def defined {α : Type} : Option α → Result α
  | some a => .done a
  | none => .undefined

/-- Source: `redis.cxy` `RedisType`. -/
inductive RedisType where
  | Value
  | Error
  | Integer
  | Double
  | Boolean
  | String
  | Array
  | Special
deriving DecidableEq

/-- Source: `redis.cxy` `Reply.getPrefix`. -/
def getPrefix (data : UInt8) : RedisType :=
  if data = ascii '+' then .Value
  else if data = ascii '-' then .Error
  else if data = ascii ':' then .Integer
  else if data = ascii ',' then .Double
  else if data = ascii '#' then .Boolean
  else if data = ascii '$' then .String
  else if data = ascii '*' then .Array
  else if data = ascii ']' ∨ data = ascii '[' then .Special
  else .Value

/-- The bytes of a reply when it is put into the response. Source: `redis.cxy` `Reply`. -/
structure Reply where
  type : RedisType
  data : Bytes
deriving DecidableEq

/-- Source: `redis.cxy` `Response`. -/
structure Response where
  buffer : Runtime.String
  entries : List Reply

/-- Source: `redis.cxy` `Response.init`. -/
def Response.init : Response := ⟨Runtime.String.init, []⟩

/-- The sign in front of a numeral, and the rest. -/
def sign : Bytes → Bool × Bytes
  | [] => (false, [])
  | c :: s => if c = ascii '-' then (true, s) else if c = ascii '+' then (false, s)
      else (false, c :: s)

/-- The base that a numeral has by its first characters, and its digits. -/
def radix (s : Bytes) : ℕ × Bytes :=
  if s.head? = some (ascii '0') then
    match s.tail with
    | x :: d :: t => if (x = ascii 'x' ∨ x = ascii 'X') ∧ isDigitOf 16 d then (16, d :: t)
        else (8, s)
    | _ => (8, s)
  else (10, s)

/-- `strtoll` with base 0. Source: `builtins.cxy` `toi`. -/
def strtoll (s : Bytes) : ℤ :=
  let (minus, s) := sign (s.dropWhile Runtime.String.isSpace)
  let (base, s) := radix s
  let v := value base (s.takeWhile (isDigitOf base))
  if minus then max (-(v : ℤ)) (-2 ^ 63) else min v (2 ^ 63 - 1)

section Reader

-- `fresh` is what the allocator leaves in new memory, `strerr` the text of the last error.
variable (fresh : ℕ → UInt8) (strerr : String)

/-- One byte is read to the place `i` of the block. -/
def receiveAt (buffer : Runtime.String) (i : ℕ)
    (w : Wire) : Result (UInt8 × Runtime.String × Wire) :=
  match receive 1 w with
  | (some [c], w) => do
      let mem ← defined buffer.data
      let data ← defined (Block.write mem i [c])
      .done (c, { buffer with data := some data }, w)
  | _ => .raised ("receive failed: " ++ strerr)

/-- The buffer, the place that `p` points to, and `cap`, before the next byte. -/
def makeRoom (buffer : Runtime.String) (p cap bytes : ℕ) : Result (Runtime.String × ℕ × ℕ) :=
  if bytes ≥ cap then do
    let buffer ← defined (buffer.resize ((bytes + buffer.size) % 2 ^ 64))
    let buffer ← defined (buffer.reserve (cap * 2 % 2 ^ 64) fresh)
    .done (buffer, buffer.size, cap * 2 % 2 ^ 64)
  else .done (buffer, p, cap)

/-- The loop of `_receiveLine`, which reads a byte in each round. -/
def lineLoop : ℕ → Runtime.String → ℕ → ℕ → ℕ → Wire → Result (ℕ × Runtime.String × Wire)
  | 0, _, _, _, _, _ => .endless
  | rounds + 1, buffer, p, cap, bytes, w => do
      let (buffer, p, cap) ← makeRoom fresh buffer p cap bytes
      let (c, buffer, w) ← receiveAt strerr buffer (p + bytes) w
      if c = ascii '\r' then do
        let (c, buffer, w) ← receiveAt strerr buffer (p + bytes + 1) w
        if c = ascii '\n' then .done (bytes + 2, buffer, w)
        else lineLoop rounds buffer p cap (bytes + 2) w
      else lineLoop rounds buffer p cap (bytes + 1) w

/-- Source: `redis.cxy` `_receiveLine`. -/
def receiveLine (buffer : Runtime.String) (w : Wire) : Result (Runtime.String × Wire) := do
  let buffer ← defined (buffer.reserve 255 fresh)
  let (bytes, buffer, w) ← lineLoop fresh strerr
    (w.length + 1) buffer buffer.size buffer.capacity 0 w
  let buffer ← defined (buffer.resize (buffer.size + bytes - 2))
  .done (buffer, w)

/-- Source: `redis.cxy` `_receiveLen`. -/
def receiveLen (w : Wire) : Result (ℕ × Wire) := do
  let (buffer, w) ← receiveLine fresh strerr Runtime.String.init w
  .done ((strtoll (Runtime.String.cString (buffer.data.getD [])) % 2 ^ 64).toNat, w)

/-- The counted string: its payload and `\r\n` are read at once. -/
def receiveBulk (len : ℕ) (w : Wire) : Result (Reply × Wire) :=
  if len > 0 then do
    let size := (len + 2) % 2 ^ 64
    let tmp ← defined (Runtime.String.init.reserve size fresh)
    let (nread, w) := receive size w
    if nread.map List.length ≠ some size then .raised ("recv failed: " ++ strerr)
    else do
      let mem ← defined tmp.data
      let data ← defined (Block.write mem 0 (nread.getD []))
      let tmp ← defined ({ tmp with data := some data }.resize len)
      .done (⟨.String, tmp.view⟩, w)
  else .done (⟨.String, []⟩, w)

/-- `for _ in 0..n`. -/
def times {σ : Type} : ℕ → (σ → Result σ) → σ → Result σ
  | 0, _, s => .done s
  | n + 1, f, s => f s >>= times n f

/-- The body of `_receive`, with the call of itself as `again`. -/
def receiveBody (again : Response × Wire → Result (Response × Wire)) (s : Response × Wire) :
    Result (Response × Wire) :=
  match receive 1 s.2 with
  | (some [c], w) =>
      let start := s.1.buffer.size
      if c = ascii '+' ∨ c = ascii '-' ∨ c = ascii ':' ∨ c = ascii '#' then do
        let (buffer, w) ← receiveLine fresh strerr s.1.buffer w
        .done (⟨buffer, s.1.entries ++ [⟨getPrefix c, buffer.view.drop start⟩]⟩, w)
      else if c = ascii '$' then do
        let (len, w) ← receiveLen fresh strerr w
        let (reply, w) ← receiveBulk fresh strerr len w
        .done ({ s.1 with entries := s.1.entries ++ [reply] }, w)
      else if c = ascii '*' then do
        let (count, w) ← receiveLen fresh strerr w
        times count again (s.1, w)
      else .raised ("unsupported reply type: " ++ String.singleton (Char.ofNat c.toNat))
  | _ => .raised ("recv failed: " ++ strerr)

/-- Source: `redis.cxy` `_receive`, where the calls inside one another are at most `depth`. -/
def receiveReply : ℕ → Response × Wire → Result (Response × Wire)
  | 0 => fun _ => .endless
  | depth + 1 => receiveBody fresh strerr (receiveReply depth)

/-- The loop over the replies. Each call reads a byte, so that the bytes bound the depth. Source:
`redis.cxy` `_send`. -/
def receiveReplies (nrps : ℕ) (w : Wire) : Result (Response × Wire) :=
  times nrps (receiveReply fresh strerr (w.length + 1)) (Response.init, w)

end Reader

/-! ## Replies and commands -/

/-- A reply. The first byte of a line is one of `+`, `-`, `:` and `#`; a string without a payload is
nil. -/
inductive Message where
  | line (mark : UInt8) (text : Bytes)
  | bulk (payload : Option Bytes)
  | array (items : List Message)

def crlf : Bytes := [ascii '\r', ascii '\n']

mutual

def encode : Message → Bytes
  | .line mark text => mark :: (text ++ crlf)
  | .bulk none => ascii '$' :: ([ascii '-', ascii '1'] ++ crlf)
  | .bulk (some payload) => ascii '$' :: (decimal payload.length ++ crlf) ++ (payload ++ crlf)
  | .array items => ascii '*' :: (decimal items.length ++ crlf) ++ encodeAll items

def encodeAll : List Message → Bytes
  | [] => []
  | m :: ms => encode m ++ encodeAll ms

end

mutual

/-- The scalars of a reply in their order. -/
def scalars : Message → List Reply
  | .line mark text => [⟨getPrefix mark, text⟩]
  | .bulk payload => [⟨.String, payload.getD []⟩]
  | .array items => scalarsAll items

def scalarsAll : List Message → List Reply
  | [] => []
  | m :: ms => scalars m ++ scalarsAll ms

end

/-- What is read at once has come at once. -/
def Whole (w : Wire) : Prop := ∀ c ∈ w.tail, c.2 = false

mutual

/-- No string of the reply is empty or nil, and each arrives in one piece, where the reply is at the
front of what is to be read. -/
def Framed : Message → Wire → Prop
  | .line _ _, _ => True
  | .bulk none, _ => False
  | .bulk (some payload), w =>
      payload ≠ [] ∧ Whole ((w.drop ((decimal payload.length).length + 3)).take
        (payload.length + 2))
  | .array items, w => FramedAll items (w.drop ((decimal items.length).length + 3))

def FramedAll : List Message → Wire → Prop
  | [], _ => True
  | m :: ms, w => Framed m w ∧ FramedAll ms (w.drop (encode m).length)

end

mutual

/-- The marks of lines are marks, their texts are without `\r` and fit into the 255 bytes that are
reserved, and the numbers of bytes and items fit into an `i64`. -/
def Fits : Message → Prop
  | .line mark text =>
      mark ∈ [ascii '+', ascii '-', ascii ':', ascii '#'] ∧
        ascii '\r' ∉ text ∧ text.length + 2 ≤ 255
  | .bulk payload => (payload.getD []).length + 2 < 2 ^ 63
  | .array items => items.length < 2 ^ 63 ∧ FitsAll items

def FitsAll : List Message → Prop
  | [] => True
  | m :: ms => Fits m ∧ FitsAll ms

end

/-- What was made of the bytes of some replies and of `rest` behind them: the calls end behind the
replies, and there is a reply for each scalar. -/
def ReadExactly (ms : List Message) (rest : Bytes) (r : Result (Response × Wire)) : Prop :=
  ∃ resp w, r = .done (resp, w) ∧ w.bytes = rest ∧ resp.entries = scalarsAll ms

/-! ## What is received -/

theorem Wire.bytes_drop (w : Wire) (n : ℕ) : Wire.bytes (w.drop n) = w.bytes.drop n := List.map_drop

theorem receive_one (c : UInt8 × Bool) (w : Wire) : receive 1 (c :: w) = (some [c.1], w) := by
  simp [receive, Wire.bytes]

theorem receive_one_eq {w : Wire} {c : UInt8} {rest : Bytes} (hw : w.bytes = c :: rest) :
    receive 1 w = (some [c], w.drop 1) ∧ Wire.bytes (w.drop 1) = rest := by
  match w, hw with
  | b :: w, hw =>
      obtain ⟨rfl, rfl⟩ := List.cons.inj hw
      exact ⟨receive_one b w, rfl⟩

/-- **As many bytes as are asked for are received if they come at once.** Kind: L -/
theorem receive_iff {w : Wire} {n : ℕ} (hn : 0 < n) (hlen : n ≤ w.length) :
    (Whole (w.take n) → receive n w = (some (Wire.bytes (w.take n)), w.drop n)) ∧
      (¬ Whole (w.take n) → ∃ bs w', receive n w = (some bs, w') ∧ bs.length ≠ n) := by
  obtain ⟨n, rfl⟩ := Nat.exists_eq_add_of_lt hn
  match w, hlen with
  | b :: w, hlen =>
      rw [Nat.zero_add] at hlen ⊢
      have hlen' : n ≤ w.length := Nat.le_of_succ_le_succ hlen
      rw [List.take_succ_cons, List.drop_succ_cons]
      constructor
      · intro hwhole
        have hmore : n ≤ (w.takeWhile fun c => !c.2).length := by
          have hpre : (w.take n).takeWhile (fun c => !c.2) = w.take n := by
            apply List.takeWhile_eq_self_iff.mpr
            intro c hc
            rw [hwhole c hc]
            rfl
          have hlong : (w.take n).takeWhile (fun c => !c.2) <+: w.takeWhile fun c => !c.2 := by
            rw [← List.take_append_drop n w, List.take_left' (by simpa using hlen'),
              List.takeWhile_append]
            split_ifs with h
            · rw [hpre]
              exact List.prefix_append _ _
            · exact List.prefix_refl _
          have := hlong.length_le
          rw [hpre, List.length_take, Nat.min_eq_left hlen'] at this
          exact this
        rw [receive, Nat.min_eq_left hmore]
        rfl
      · intro hlate
        refine ⟨_, _, rfl, ?_⟩
        rw [List.length_cons, Wire.bytes, List.length_map, List.length_take]
        intro hfull
        apply hlate
        have hmore : n ≤ (w.takeWhile fun c => !c.2).length := by omega
        intro c hc
        have hpre : w.take n <+: w.takeWhile fun c => !c.2 :=
          List.prefix_of_prefix_length_le (List.take_prefix n w) (List.takeWhile_prefix _)
            (by rw [List.length_take]; omega)
        have hc' := List.mem_takeWhile_imp (hpre.subset hc)
        simpa using hc'

/-! ## Lines -/

section

variable (fresh : ℕ → UInt8) (strerr : String) {s : Runtime.String} {xs text rest : Bytes}
  {w : Wire}

@[simp] theorem done_bind {α β : Type} (a : α) (f : α → Result β) : Result.done a >>= f = f a := rfl

@[simp] theorem defined_some {α : Type} (a : α) : defined (some a) = .done a := rfl

/-- The doubling loop ends where what is asked for is at most half of all. Kind: L -/
theorem doubled_isSome {n : ℕ} (hn : n ≤ 2 ^ 63) : ∀ (rounds c : ℕ), 0 < c → n ≤ c * 2 ^ rounds →
    (Runtime.String.doubled (rounds + 1) c n).isSome := by
  intro rounds
  induction rounds with
  | zero =>
      intro c _ hle
      rw [Runtime.String.doubled, if_neg (by omega)]
      rfl
  | succ rounds ih =>
      intro c hc hle
      rw [Runtime.String.doubled]
      split_ifs with hlt
      · rw [Nat.mod_eq_of_lt (by omega)]
        refine ih (c * 2) (by omega) ?_
        rwa [Nat.mul_assoc, ← Nat.pow_succ']
      · rfl

/-- Room can be made where the string is not that long. Kind: L -/
theorem canGrow_of_le (h : s.Inv false xs) {n : ℕ} (hn : xs.length + n ≤ 2 ^ 63) :
    s.canGrow n = true := by
  rcases h with ⟨rfl, rfl⟩ | ⟨c, r, h, -⟩
  · have hsize : Runtime.String.init.newSize n = max (n % 2 ^ 64) 16 := by
      rw [Runtime.String.newSize, Runtime.String.init, Nat.zero_add]
    change decide (Runtime.String.init.newSize n + 1 < 2 ^ 64) = true
    rw [decide_eq_true_eq, hsize]
    rw [List.length_nil] at hn
    omega
  · have hsize : s.newSize n ≤ 2 ^ 63 := by
      rw [Runtime.String.newSize, h.size]
      omega
    have hpos := h.pos
    simp only [Runtime.String.canGrow, h.data, Bool.or_eq_true]
    refine Or.inr (doubled_isSome hsize 64 s.capacity hpos ?_)
    refine hsize.trans (le_trans ?_ (Nat.mul_le_mul_right _ hpos))
    decide

theorem receiveAt_spec {m r : Bytes} {x c : UInt8} {i : ℕ} (hdata : s.data = some (m ++ x :: r))
    (hi : i = m.length)
    (hw : w.bytes = c :: rest) :
    receiveAt strerr s i w = .done (c, { s with data := some (m ++ c :: r) }, w.drop 1) := by
  rw [receiveAt, (receive_one_eq hw).1, hdata]
  simp only [defined_some, done_bind, Block.write_one hi]

/-- **The rest of a line is read to its place behind what has been read.** Kind: L -/
theorem lineLoop_spec : ∀ (text : Bytes) (rounds : ℕ) (s : Runtime.String) (mem r : Bytes)
    (p cap bytes : ℕ) (w : Wire),
    ascii '\r' ∉ text → text.length < rounds → s.data = some (mem ++ r) → p + bytes = mem.length →
    text.length + 2 ≤ r.length → bytes + text.length < cap → w.bytes = text ++ crlf ++ rest →
    lineLoop fresh strerr rounds s p cap bytes w = .done (bytes + text.length + 2,
      { s with data := some (mem ++ text ++ crlf ++ r.drop (text.length + 2)) },
        w.drop (text.length + 2)) := by
  intro text
  induction text with
  | nil =>
      intro rounds s mem r p cap bytes w _ hrounds hdata hp hroom hcap hw
      obtain ⟨rounds, rfl⟩ := Nat.exists_eq_add_of_lt hrounds
      match r, hroom with
      | x :: y :: r, _ =>
          have hfirst := receiveAt_spec strerr hdata hp hw
          have hsecond := receiveAt_spec strerr
            (s := { s with data := some (mem ++ ascii '\r' :: y :: r) })
            (m := mem ++ [ascii '\r']) (x := y) (r := r)
            (i := p + bytes + 1) (by simp) (by simp [hp]) (receive_one_eq hw).2
          rw [List.length_nil, Nat.zero_add, lineLoop, makeRoom,
            if_neg (by rw [List.length_nil] at hcap; omega)]
          simp only [done_bind, hfirst, if_true, hsecond]
          simp [crlf]
  | cons c text ih =>
      intro rounds s mem r p cap bytes w htext hrounds hdata hp hroom hcap hw
      obtain ⟨hc, htext⟩ := List.ne_and_not_mem_of_not_mem_cons htext
      rw [List.length_cons] at hrounds hroom hcap
      obtain ⟨rounds, rfl⟩ := Nat.exists_eq_add_of_lt (Nat.zero_lt_of_lt hrounds)
      match r, hroom with
      | x :: r, hroom =>
          have hfirst := receiveAt_spec strerr hdata hp hw
          have hrest := ih (0 + rounds) { s with data := some (mem ++ c :: r) } (mem ++ [c]) r p cap
            (bytes + 1) (w.drop 1)
            htext (by omega) (by simp) (by simp; omega) (by rw [List.length_cons] at hroom; omega)
              (by omega)
            (receive_one_eq hw).2
          rw [lineLoop, makeRoom, if_neg (by omega)]
          simp only [done_bind, hfirst, if_neg (Ne.symm hc), hrest]
          simp [Nat.add_comm, Nat.add_left_comm, Nat.add_assoc]

/-- The text of a line is put behind the buffer. Kind: L -/
theorem receiveLine_spec (hs : s.Inv false xs) (hsize : xs.length + 300 ≤ 2 ^ 63)
    (htext : ascii '\r' ∉ text)
    (hlen : text.length + 2 ≤ 255) (hw : w.bytes = text ++ crlf ++ rest) :
    ∃ (s' : Runtime.String) (r : Bytes),
      receiveLine fresh strerr s w = .done (s', w.drop (text.length + 2)) ∧
      s'.Holds (xs ++ text) 0 r := by
  obtain ⟨s₁, c, r, hgrow, hholds, -, hroom⟩ := @Runtime.String.grow_inv _ _ _ hs _ fresh
    (canGrow_of_le hs (n := 255) (by omega)) (fun _ h => nomatch h)
  have hcap := hroom (by omega)
  have hblock := hholds.block
  rw [List.length_append] at hblock
  have hwlen : text.length < w.length + 1 := by
    have := congrArg List.length hw
    simp only [Wire.bytes, List.length_map, List.length_append] at this
    omega
  have hloop := lineLoop_spec fresh strerr text (w.length + 1) s₁ xs (c :: r) s₁.size s₁.capacity 0
    w htext hwlen hholds.data (by rw [hholds.size, Nat.add_zero]) (by omega) (by omega) hw
  have hdrop : ((c :: r).drop (text.length + 2)).length + text.length + 2 +
    xs.length = s₁.capacity + 1 := by
    rw [List.length_drop]
    omega
  have hresize : Runtime.String.resize
        { s₁ with data := some (xs ++ text ++ crlf ++ (c :: r).drop (text.length + 2)) }
        (s₁.size + (0 + text.length + 2) - 2) =
      some { s₁ with
        data := some (xs ++ text ++ 0 :: ascii '\n' :: (c :: r).drop (text.length + 2))
        size := s₁.size + (0 + text.length + 2) - 2 } := by
    rw [Runtime.String.resize, if_pos (by dsimp only; rw [hholds.size]; omega)]
    have hwrite : Block.write (xs ++ text ++ crlf ++ (c :: r).drop (text.length + 2))
        (s₁.size + (0 + text.length + 2) - 2) [0] =
        some (xs ++ text ++ 0 :: ascii '\n' :: (c :: r).drop (text.length + 2)) := by
      rw [crlf, List.append_assoc (xs ++ text)]
      apply Block.write_one
      rw [List.length_append, hholds.size]
      omega
    simp only [Option.bind_eq_bind, Option.bind_some, hwrite]
  refine ⟨{ s₁ with
    data := some (xs ++ text ++ 0 :: ascii '\n' :: (c :: r).drop (text.length + 2))
    size := s₁.size + (0 + text.length + 2) - 2 }, _, ?_, ⟨rfl, ?_, ?_, hholds.pos, hholds.bound⟩⟩
  · rw [receiveLine, Runtime.String.reserve, hgrow]
    simp only [defined_some, done_bind, hloop, hresize]
  · simp only [List.length_append, hholds.size]
    omega
  · simp only [List.length_append, List.length_cons]
    omega

/-- `strtoll` reads back a number that is written with decimal digits. Kind: L -/
theorem strtoll_decimal {n : ℕ} (hn : n < 2 ^ 63) : strtoll (decimal n) = n := by
  rcases Nat.eq_zero_or_pos n with rfl | hpos
  · decide
  · obtain ⟨d, ds, hd, hlt, heq⟩ := decimal_eq_cons hpos
    have hall : ∀ d : ℕ, d < 10 → 0 < d → Runtime.String.isSpace (digit d) = false ∧
      digit d ≠ ascii '-' ∧
        digit d ≠ ascii '+' ∧ digit d ≠ ascii '0' := by decide
    obtain ⟨hspace, hminus, hplus, hzero⟩ := hall d hlt hd
    have hsign : sign ((decimal n).dropWhile Runtime.String.isSpace) = (false, decimal n) := by
      rw [heq, List.dropWhile_cons_of_neg (by rw [hspace]; decide),
        sign, if_neg hminus, if_neg hplus]
    have hradix : radix (decimal n) = (10, decimal n) := by
      rw [radix, heq, if_neg]
      exact fun h => hzero (Option.some.inj h)
    have hdigits : (decimal n).takeWhile (isDigitOf 10) = decimal n :=
      List.takeWhile_eq_self_iff.mpr (isNumeral_decimal n)
    rw [strtoll, hsign]
    simp only [hradix, hdigits, value_decimal]
    rw [if_neg Bool.false_ne_true]
    omega

theorem mem_decimal {n : ℕ} {c : UInt8} (hc : c ∈ decimal n) : c ≠ ascii '\r' ∧ c ≠ 0 := by
  have hdigit := isNumeral_decimal n c hc
  constructor <;>
  · rintro rfl
    exact absurd hdigit (by decide)

theorem receiveLen_spec {n : ℕ} (hn : n < 2 ^ 63) (hw : w.bytes = decimal n ++ crlf ++ rest) :
    receiveLen fresh strerr w = .done (n, w.drop ((decimal n).length + 2)) := by
  have hlen : (decimal n).length ≤ 19 := length_decimal_le (by decide) (hn.trans (by decide))
  obtain ⟨s, r, hline, hholds⟩ := receiveLine_spec fresh strerr (Or.inl ⟨rfl, rfl⟩) (by decide)
    (fun hc => (mem_decimal hc).1 rfl) (by omega) hw
  have hcstring : Runtime.String.cString (decimal n ++ 0 :: r) = decimal n :=
    Runtime.String.cString_append fun hc => (mem_decimal hc).2 rfl
  have hu64 : ((n : ℤ) % 2 ^ 64).toNat = n := by omega
  rw [receiveLen, hline]
  simp only [done_bind, hholds.data, Option.getD_some, List.nil_append, hcstring,
    strtoll_decimal hn, hu64]

theorem receiveLen_nil (hw : w.bytes = [ascii '-', ascii '1'] ++ crlf ++ rest) :
    receiveLen fresh strerr w = .done (2 ^ 64 - 1, w.drop 4) := by
  obtain ⟨s, r, hline, hholds⟩ := receiveLine_spec fresh strerr (Or.inl ⟨rfl, rfl⟩) (by decide)
    (by decide) (by decide) hw
  have hcstring : Runtime.String.cString ([ascii '-', ascii '1'] ++ 0 :: r) =
    [ascii '-', ascii '1'] :=
    Runtime.String.cString_append (by decide)
  have hvalue : strtoll [ascii '-', ascii '1'] = -1 := by decide
  rw [receiveLen, hline]
  simp only [done_bind, hholds.data, Option.getD_some, List.nil_append, hcstring, hvalue]
  exact congrArg (fun n => Result.done (n, w.drop 4)) (by decide)

/-! ## Strings -/

/-- A string whose payload is there at once. Kind: L -/
theorem receiveBulk_whole {payload : Bytes} (hne : payload ≠ [])
    (hfits : payload.length + 2 < 2 ^ 63)
    (hw : w.bytes = payload ++ crlf ++ rest) (hwhole : Whole (w.take (payload.length + 2))) :
    receiveBulk fresh strerr payload.length w = .done
      (⟨.String, payload⟩, w.drop (payload.length + 2)) := by
  have hpos : 0 < payload.length := List.length_pos_iff.mpr hne
  have hwlen : payload.length + 2 ≤ w.length := by
    have := congrArg List.length hw
    simp only [Wire.bytes, List.length_map, List.length_append] at this
    change w.length = payload.length + 2 + rest.length at this
    omega
  have hbytes : Wire.bytes (w.take (payload.length + 2)) = payload ++ crlf := by
    rw [Wire.bytes, List.map_take]
    change w.bytes.take _ = _
    rw [hw]
    exact List.take_left' (List.length_append ..)
  obtain ⟨tmp, c, r, hgrow, hholds, -, hroom⟩ :=
    @Runtime.String.grow_inv .init false [] (Or.inl ⟨rfl, rfl⟩) _ fresh
    (canGrow_of_le (Or.inl ⟨rfl, rfl⟩) (n := payload.length + 2)
      (by rw [List.length_nil]; omega)) (fun _ h => nomatch h)
  have hcap := hroom (by rw [List.length_nil]; omega)
  rw [List.length_nil, Nat.zero_add] at hcap
  have hblock := hholds.block
  rw [List.nil_append] at hblock
  have hwrite : Block.write (c :: r) 0 (payload ++ crlf) = some
    (payload ++ crlf ++ (c :: r).drop (payload.length + 2)) := by
    have hlen : (payload ++ crlf).length ≤ (c :: r).length := by
      rw [hblock, List.length_append]
      change payload.length + 2 ≤ _
      omega
    have hfront := Block.write_append (p := []) (i := 0) rfl hlen
    rwa [List.length_append] at hfront
  have hend : Block.write (payload ++ crlf ++ (c :: r).drop (payload.length + 2)) payload.length
    [0] =
      some (payload ++ 0 :: ascii '\n' :: (c :: r).drop (payload.length + 2)) := by
    rw [crlf, List.append_assoc]
    exact Block.write_one rfl
  have hsize : (payload.length + 2) % 2 ^ 64 = payload.length + 2 := Nat.mod_eq_of_lt (by omega)
  have hnread : (some (payload ++ crlf)).map List.length = some (payload.length + 2) := by
    rw [Option.map_some, List.length_append]
    rfl
  rw [receiveBulk, if_pos hpos]
  simp only [hsize, (receive_iff (Nat.succ_pos _) hwlen).1 hwhole, hbytes,
    Runtime.String.reserve, hgrow, defined_some,
    done_bind, hnread, ne_eq, not_true_eq_false, if_false, hholds.data, List.nil_append,
      Option.getD_some, hwrite]
  rw [Runtime.String.resize, if_pos (by dsimp only; omega)]
  simp only [Option.bind_eq_bind, Option.bind_some, hend, defined_some, done_bind]
  congr 3
  exact List.take_left

/-- A string of which a part comes later. Kind: L -/
theorem receiveBulk_split {payload : Bytes} (hne : payload ≠ [])
    (hfits : payload.length + 2 < 2 ^ 63)
    (hw : w.bytes = payload ++ crlf ++ rest) (hsplit : ¬ Whole (w.take (payload.length + 2))) :
    receiveBulk fresh strerr payload.length w = .raised ("recv failed: " ++ strerr) := by
  have hwlen : payload.length + 2 ≤ w.length := by
    have := congrArg List.length hw
    simp only [Wire.bytes, List.length_map, List.length_append] at this
    change w.length = payload.length + 2 + rest.length at this
    omega
  obtain ⟨bs, w', hreceive, hshort⟩ := (receive_iff (Nat.succ_pos _) hwlen).2 hsplit
  obtain ⟨tmp, c, r, hgrow, -⟩ :=
    @Runtime.String.grow_inv .init false [] (Or.inl ⟨rfl, rfl⟩) _ fresh
    (canGrow_of_le (Or.inl ⟨rfl, rfl⟩) (n := payload.length + 2)
      (by rw [List.length_nil]; omega)) (fun _ h => nomatch h)
  have hsize : (payload.length + 2) % 2 ^ 64 = payload.length + 2 := Nat.mod_eq_of_lt (by omega)
  rw [receiveBulk, if_pos (List.length_pos_iff.mpr hne)]
  simp only [hsize, hreceive, Runtime.String.reserve, hgrow, defined_some, done_bind,
    Option.map_some, ne_eq,
    Option.some.injEq, hshort, not_false_eq_true, if_true]

/-- What is made of a nil string: the size that is read goes round. Kind: L -/
theorem receiveBulk_nil : ∀ w : Wire, receiveBulk fresh strerr (2 ^ 64 - 1) w = .raised
    ("recv failed: " ++ strerr) ∨
    receiveBulk fresh strerr (2 ^ 64 - 1) w = .undefined
  | [] => Or.inl rfl
  | c :: w => by
      refine Or.inr ?_
      rw [receiveBulk, if_pos (by decide)]
      have hsize : (2 ^ 64 - 1 + 2) % 2 ^ 64 = 1 := by decide
      simp only [hsize, receive_one]
      rfl

/-! ## Replies -/

/-- After what went wrong either nothing is returned, or the end of a string is still to be read. -/
def Astray (rest : Bytes) (r : Result (Response × Wire)) : Prop :=
  ∀ resp w, r = .done (resp, w) → w.bytes = crlf ++ rest

/-- What was read of `m`: the scalars, and no more of the buffer than what `m` has. -/
def ReadBehind (size : ℕ) (entries : List Reply) (xs : Bytes) (resp : Response) (w : Wire)
    (r : Result (Response × Wire)) : Prop :=
  ∃ resp' xs', r = .done (resp', w.drop size) ∧ resp'.entries = resp.entries ++ entries ∧
    resp'.buffer.Inv false xs' ∧ xs'.length ≤ xs.length + size

theorem encode_pos (m : Message) : 0 < (encode m).length := by
  match m with
  | .line _ _ | .bulk none | .bulk (some _) | .array _ => simp [encode]

/-- Behind the end of a string there is no reply. Kind: L -/
theorem receiveReply_crlf {depth : ℕ} {resp : Response} (hw : w.bytes = crlf ++ rest) :
    receiveReply fresh strerr (depth + 1) (resp, w) =
      .raised ("unsupported reply type: " ++ String.singleton (Char.ofNat 13)) := by
  rw [receiveReply, receiveBody, (receive_one_eq hw).1]
  rfl

theorem receiveReply_line {depth : ℕ} {resp : Response} {mark : UInt8}
    (hfits : Fits (.line mark text))
    (hxs : resp.buffer.Inv false xs)
      (hsize : xs.length + (encode (.line mark text)).length + 300 ≤ 2 ^ 63)
    (hw : w.bytes = encode (.line mark text) ++ rest) :
    ReadBehind (encode (.line mark text)).length (scalars (.line mark text)) xs resp w
      (receiveReply fresh strerr (depth + 1) (resp, w)) := by
  obtain ⟨hmark, htext, hlen⟩ := hfits
  have hcase : mark = ascii '+' ∨ mark = ascii '-' ∨ mark = ascii ':' ∨ mark = ascii '#' := by
    simpa using hmark
  obtain ⟨hfirst, hrest⟩ := receive_one_eq hw
  obtain ⟨s', r, hline, hholds⟩ := receiveLine_spec fresh strerr hxs (by omega) htext hlen hrest
  have hstart : resp.buffer.size = xs.length := hxs.represents.size
  have htotal : (encode (.line mark text)).length = 1 + (text.length + 2) := by
    rw [encode, List.length_cons, List.length_append, Nat.add_comm]
    rfl
  refine ⟨⟨s', resp.entries ++ [⟨getPrefix mark, text⟩]⟩, xs ++ text, ?_, rfl,
    Or.inr ⟨0, r, hholds, fun _ => rfl⟩, ?_⟩
  · rw [receiveReply, receiveBody, hfirst, htotal]
    simp only [if_pos hcase, hline, done_bind, hholds.view, hstart, List.drop_left, List.drop_drop]
  · rw [htotal, List.length_append]
    omega

theorem receiveReply_bulk {depth : ℕ} {resp : Response} {payload : Option Bytes}
    (hfits : Fits (.bulk payload))
    (hxs : resp.buffer.Inv false xs) (hw : w.bytes = encode (.bulk payload) ++ rest) :
    (Framed (.bulk payload) w → ReadBehind (encode (.bulk payload)).length
      (scalars (.bulk payload)) xs resp w
      (receiveReply fresh strerr (depth + 1) (resp, w))) ∧
    (¬ Framed (.bulk payload) w →
      Astray rest (receiveReply fresh strerr (depth + 1) (resp, w))) := by
  have hmark : ¬ (ascii '$' = ascii '+' ∨ ascii '$' = ascii '-' ∨ ascii '$' = ascii ':' ∨
    ascii '$' = ascii '#') := by
    decide
  match payload, hfits with
  | none, _ =>
      refine ⟨False.elim, fun _ resp' w' hdone => ?_⟩
      obtain ⟨hfirst, hrest⟩ := receive_one_eq hw
      rw [receiveReply, receiveBody, hfirst] at hdone
      simp only [if_neg hmark, if_true, receiveLen_nil fresh strerr hrest, done_bind] at hdone
      rcases receiveBulk_nil fresh strerr ((w.drop 1).drop 4) with hnil | hnil
      · rw [hnil] at hdone
        exact nomatch hdone
      · rw [hnil] at hdone
        exact nomatch hdone
  | some payload, hfits =>
      have hn : payload.length < 2 ^ 63 := Nat.lt_of_le_of_lt (Nat.le_add_right _ 2) hfits
      have hw' : w.bytes = ascii '$' :: (decimal payload.length ++ crlf ++
        (payload ++ crlf ++ rest)) := by
        rw [hw, encode]
        simp
      obtain ⟨hfirst, hrest⟩ := receive_one_eq hw'
      have hlen := receiveLen_spec fresh strerr hn hrest
      have hdrop : (w.drop 1).drop ((decimal payload.length).length + 2) = w.drop
        ((decimal payload.length).length + 3) := by
        rw [List.drop_drop, Nat.add_comm 1]
      have hpayload : Wire.bytes (w.drop ((decimal payload.length).length + 3)) =
        payload ++ crlf ++ rest := by
        rw [← hdrop, Wire.bytes_drop, hrest]
        exact List.drop_left' (List.length_append ..)
      have hbody : receiveReply fresh strerr (depth + 1) (resp, w) =
          (receiveBulk fresh strerr payload.length
            (w.drop ((decimal payload.length).length + 3)) >>= fun r =>
            .done ({ resp with entries := resp.entries ++ [r.1] }, r.2)) := by
        rw [receiveReply, receiveBody, hfirst]
        simp only [if_neg hmark, if_true, hlen, done_bind, hdrop]
      have htotal : (encode (.bulk (some payload))).length =
          (decimal payload.length).length + 3 + (payload.length + 2) := by
        simp only [encode, crlf, List.length_cons, List.length_append, List.length_nil]
      rw [hbody]
      constructor
      · rintro ⟨hne, hwhole⟩
        refine ⟨{ resp with entries := resp.entries ++ [⟨.String, payload⟩] }, xs, ?_,
          rfl, hxs, Nat.le_add_right _ _⟩
        rw [receiveBulk_whole fresh strerr hne hfits hpayload hwhole, htotal, List.drop_drop]
        rfl
      · intro hnot resp' w' hdone
        rcases eq_or_ne payload [] with rfl | hne
        · cases hdone
          exact hpayload
        · have hsplit := fun hwhole => hnot ⟨hne, hwhole⟩
          rw [receiveBulk_split fresh strerr hne hfits hpayload hsplit] at hdone
          exact nomatch hdone

mutual

/-- **A reply is read to its end, or the reader goes astray.** Kind: P -/
theorem receiveReply_spec (m : Message) (depth : ℕ) (resp : Response) (xs rest : Bytes) (w : Wire)
    (hfits : Fits m)
    (hdepth : (encode m).length ≤ depth) (hxs : resp.buffer.Inv false xs)
    (hsize : xs.length + (encode m).length + 300 ≤ 2 ^ 63) (hw : w.bytes = encode m ++ rest) :
    (Framed m w → ReadBehind (encode m).length (scalars m) xs resp w
      (receiveReply fresh strerr depth (resp, w))) ∧
      (¬ Framed m w → Astray rest (receiveReply fresh strerr depth (resp, w))) := by
  obtain ⟨depth, rfl⟩ := Nat.exists_eq_add_of_lt ((encode_pos m).trans_le hdepth)
  rw [Nat.zero_add] at hdepth ⊢
  match m with
  | .line mark text =>
      exact ⟨fun _ => receiveReply_line fresh strerr hfits hxs hsize hw, fun hnot =>
        absurd trivial hnot⟩
  | .bulk payload => exact receiveReply_bulk fresh strerr hfits hxs hw
  | .array items =>
      obtain ⟨hn, hfits⟩ := hfits
      have hw' : w.bytes = ascii '*' :: (decimal items.length ++ crlf ++
        (encodeAll items ++ rest)) := by
        rw [hw, encode]
        simp
      obtain ⟨hfirst, hrest⟩ := receive_one_eq hw'
      have hlen := receiveLen_spec fresh strerr hn hrest
      have hdrop : (w.drop 1).drop ((decimal items.length).length + 2) = w.drop
        ((decimal items.length).length + 3) := by
        rw [List.drop_drop, Nat.add_comm 1]
      have hitems : Wire.bytes (w.drop ((decimal items.length).length + 3)) =
        encodeAll items ++ rest := by
        rw [← hdrop, Wire.bytes_drop, hrest]
        exact List.drop_left' (List.length_append ..)
      have htotal : (encode (.array items)).length =
        (decimal items.length).length + 3 + (encodeAll items).length := by
        simp only [encode, crlf, List.length_cons, List.length_append, List.length_nil]
      have hbody : receiveReply fresh strerr (depth + 1) (resp, w) = times items.length
        (receiveReply fresh strerr depth)
          (resp, w.drop ((decimal items.length).length + 3)) := by
        rw [receiveReply, receiveBody, hfirst]
        simp only [hlen, done_bind, hdrop]
        rfl
      obtain ⟨hgood, hbad⟩ := receiveAll_spec items depth resp xs rest _ hfits (by omega) hxs
        (by omega) hitems
      rw [hbody]
      refine ⟨fun hframed => ?_, hbad⟩
      obtain ⟨resp', xs', hrun, hentries, hxs', hle⟩ := hgood hframed
      refine ⟨resp', xs', ?_, hentries, hxs', by omega⟩
      rw [hrun, htotal, List.drop_drop]

theorem receiveAll_spec (ms : List Message) (depth : ℕ) (resp : Response) (xs rest : Bytes)
    (w : Wire)
    (hfits : FitsAll ms) (hdepth : (encodeAll ms).length ≤ depth) (hxs : resp.buffer.Inv false xs)
    (hsize : xs.length + (encodeAll ms).length + 300 ≤ 2 ^ 63)
      (hw : w.bytes = encodeAll ms ++ rest) :
    (FramedAll ms w → ReadBehind (encodeAll ms).length (scalarsAll ms) xs resp w
        (times ms.length (receiveReply fresh strerr depth) (resp, w))) ∧
      (¬ FramedAll ms w → Astray rest
        (times ms.length (receiveReply fresh strerr depth) (resp, w))) := by
  match ms with
  | [] =>
      refine ⟨fun _ => ⟨resp, xs, ?_, (List.append_nil _).symm, hxs, Nat.le_add_right _ _⟩,
        fun hnot => absurd trivial hnot⟩
      rfl
  | m :: ms =>
      obtain ⟨hm, hms⟩ := hfits
      rw [encodeAll, List.length_append] at hdepth hsize
      rw [encodeAll, List.append_assoc] at hw
      obtain ⟨hgood, hbad⟩ := receiveReply_spec m depth resp xs (encodeAll ms ++ rest) w hm
        (by omega) hxs (by omega) hw
      have hw' : Wire.bytes (w.drop (encode m).length) = encodeAll ms ++ rest := by
        rw [Wire.bytes_drop, hw, List.drop_left]
      by_cases hframed : Framed m w
      · obtain ⟨resp₁, xs₁, hrun, hentries, hxs₁, hle⟩ := hgood hframed
        obtain ⟨hgood', hbad'⟩ :=
          receiveAll_spec ms depth resp₁ xs₁ rest _ hms (by omega) hxs₁ (by omega) hw'
        have htimes : times (m :: ms).length (receiveReply fresh strerr depth) (resp, w) =
            times ms.length (receiveReply fresh strerr depth)
              (resp₁, w.drop (encode m).length) := by
          rw [List.length_cons, times, hrun]
          rfl
        rw [htimes]
        refine ⟨fun hall => ?_, fun hnot => hbad' fun hall => hnot ⟨hframed, hall⟩⟩
        obtain ⟨resp₂, xs₂, hrun₂, hentries₂, hxs₂, hle₂⟩ := hgood' hall.2
        refine ⟨resp₂, xs₂, ?_, ?_, hxs₂, ?_⟩
        · rw [hrun₂, encodeAll, List.length_append, List.drop_drop]
        · rw [hentries₂, hentries, List.append_assoc]
          rfl
        · rw [encodeAll, List.length_append]
          omega
      · refine ⟨fun hall => absurd hall.1 hframed, fun _ resp' w' hdone => ?_⟩
        rw [List.length_cons, times] at hdone
        rcases hfirst : receiveReply fresh strerr depth (resp, w) with ⟨resp₁, w₁⟩ | _ | _ | _
          <;> rw [hfirst] at hdone
        · have hstray := hbad hframed resp₁ w₁ hfirst
          match ms with
          | [] =>
              cases hdone
              exact hstray
          | m' :: ms =>
              obtain ⟨depth, rfl⟩ :=
                Nat.exists_eq_add_of_lt
                ((encode_pos m).trans_le (by omega : (encode m).length ≤ depth))
              rw [done_bind, List.length_cons, times, Nat.zero_add,
                receiveReply_crlf fresh strerr hstray] at hdone
              exact nomatch hdone
        · exact nomatch hdone
        · exact nomatch hdone
        · exact nomatch hdone

end

end

/-- A status, and an array of a string and a number. -/
def pipelined : List Message :=
  [.line (ascii '+') [ascii 'O', ascii 'K'],
    .array [.bulk (some [ascii 'x']), .line (ascii ':') [ascii '7']]]

/-- An argument that is a text. Source: `redis.cxy` `RedisCommand.addArgument`. -/
def addArgument (os arg : Bytes) : Bytes :=
  os ++ ascii '$' :: (decimal arg.length ++ crlf ++ arg ++ crlf)

/-- A command with texts as arguments. Source: `redis.cxy` `RedisCommand.init`. -/
def redisCommand (command : Bytes) (args : List Bytes) : Bytes :=
  args.foldl addArgument (addArgument (ascii '*' :: (decimal (1 + args.length) ++ crlf)) command)

theorem foldl_addArgument (args : List Bytes) : ∀ os : Bytes, args.foldl addArgument os =
    os ++ encodeAll (args.map fun a => .bulk (some a)) := by
  induction args with
  | nil => exact fun os => (List.append_nil os).symm
  | cons arg args ih =>
      intro os
      rw [List.foldl_cons, ih, List.map_cons, encodeAll]
      simp [addArgument, encode]

/-- **A command is the array of its words.** Kind: L -/
theorem redisCommand_eq (command : Bytes) (args : List Bytes) : redisCommand command args =
    encode (.array ((command :: args).map fun word => .bulk (some word))) := by
  rw [redisCommand, foldl_addArgument]
  simp [addArgument, encode, encodeAll, Nat.add_comm]

/-- The number in front of a line end can be read back. Kind: L -/
theorem header_inj {n m : ℕ} {r r' : Bytes}
    (h : decimal n ++ crlf ++ r = decimal m ++ crlf ++ r') : n = m ∧ r = r' := by
  have hsplit : ∀ (k : ℕ) (t : Bytes), (decimal k ++ crlf ++ t).takeWhile
    (isDigitOf 10) = decimal k := by
    intro k t
    rw [List.append_assoc, List.takeWhile_append_of_pos (isNumeral_decimal k)]
    have hstop : (crlf ++ t).takeWhile (isDigitOf 10) = [] := by
      rw [crlf, List.cons_append, List.takeWhile_cons_of_neg (by decide)]
    rw [hstop, List.append_nil]
  have hnm : decimal n = decimal m := by rw [← hsplit n r, h, hsplit]
  refine ⟨decimal_injective hnm, ?_⟩
  rw [hnm] at h
  exact List.append_cancel_left h

theorem words_inj : ∀ (ws vs : List Bytes) (r r' : Bytes), ws.length = vs.length →
    encodeAll (ws.map fun word => .bulk (some word)) ++ r = encodeAll (vs.map fun word =>
      .bulk (some word)) ++ r' →
    ws = vs ∧ r = r'
  | [], [], _, _, _, h => ⟨rfl, h⟩
  | w :: ws, v :: vs, r, r', hlen, h => by
      have hcons : ∀ (u : Bytes) (us : List Bytes) (t : Bytes),
          encodeAll ((u :: us).map fun word => .bulk (some word)) ++ t = ascii '$' ::
            (decimal u.length ++ crlf ++
              (u ++ (crlf ++ (encodeAll (us.map fun word => .bulk (some word)) ++ t)))) := by
        simp [encodeAll, encode]
      rw [hcons, hcons] at h
      obtain ⟨huv, htail⟩ := header_inj (List.cons.inj h).2
      obtain ⟨rfl, hend⟩ := List.append_inj htail huv
      have hrest := (List.append_right_inj crlf).mp hend
      obtain ⟨rfl, rfl⟩ := words_inj ws vs r r' (Nat.succ.inj hlen) hrest
      exact ⟨rfl, rfl⟩

/-- **The bytes of pipelined commands determine the commands.**
Source: `redis.cxy` `RedisCommand`. Kind: P -/
theorem commands_injective : ∀ cs ds : List (Bytes × List Bytes),
    cs.flatMap (fun c => redisCommand c.1 c.2) = ds.flatMap (fun d => redisCommand d.1 d.2) →
    cs = ds := by
  have hcons : ∀ (c : Bytes × List Bytes) (t : Bytes), redisCommand c.1 c.2 ++ t = ascii '*' ::
      (decimal (c.1 :: c.2).length ++ crlf ++
        (encodeAll ((c.1 :: c.2).map fun word => .bulk (some word)) ++ t)) := by
    intro c t
    rw [redisCommand_eq, encode]
    simp
  intro cs
  induction cs with
  | nil =>
      intro ds h
      match ds with
      | [] => rfl
      | d :: ds =>
          rw [List.flatMap_cons, hcons] at h
          exact nomatch h
  | cons c cs ih =>
      intro ds h
      match ds with
      | [] =>
          rw [List.flatMap_cons, hcons] at h
          exact nomatch h
      | d :: ds =>
          rw [List.flatMap_cons, List.flatMap_cons, hcons, hcons] at h
          obtain ⟨hlen, htail⟩ := header_inj (List.cons.inj h).2
          obtain ⟨hwords, hrest⟩ := words_inj _ _ _ _ hlen htail
          obtain ⟨hname, hargs⟩ := List.cons.inj hwords
          rw [Prod.ext hname hargs, ih ds hrest]

/-- `SET k` with a text of two lines, twice. Kind: L -/
theorem commands_injective_sample :
    ([([83, 69, 84], [[107], [13, 10]])] : List (Bytes × List Bytes)) =
      [([83, 69, 84], [[107], [13, 10]])] :=
  commands_injective [([83, 69, 84], [[107], [13, 10]])] [([83, 69, 84], [[107], [13, 10]])]
    (by decide)

end CxyCompiler.Stdlib.Redis

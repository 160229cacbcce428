import Pgrust.Lz4Block

/-!
# The padded LZ4 block decoder

The decoder of the column store writes 16 and 32 bytes at a time into an output
buffer with slack behind its logical end. Memory is explicit: every load, store
and pointer step is checked, and one that leaves its buffer ends the run in
`fault`, so a run that never faults never left them.
-/
namespace Lz4dec

open Lz4Block (spread)

def outPad : Nat := 64

/-- `usize::MAX + 1` on the 64-bit targets the server runs on. -/
def usizeLimit : Nat := 2 ^ 64

/-- A Rust slice: no allocation is longer than `isize::MAX` bytes. -/
structure ByteSlice where
  bytes : List UInt8
  fits : bytes.length < 2 ^ 63

/-- The contents of memory, by distance from the start of a buffer. -/
abbrev Mem := Nat → UInt8

/-- A mutable output slice: its contents and its length. -/
structure OutSlice where
  mem : Mem
  len : Nat
  fits : len < 2 ^ 63

inductive Lz4Error where
  | trunc
  | len
  | out
  | offset
  | short
  deriving DecidableEq, Repr

def Lz4Error.text : Lz4Error → String
  | .trunc => "truncated LZ4 block"
  | .len => "LZ4 length overflow"
  | .out => "LZ4 output overrun"
  | .offset => "invalid LZ4 match offset"
  | .short => "LZ4 block ended early"

/-- A run stops with an error it returns, the output as it then stands, or in a
fault: a panic, or a memory access outside a buffer. -/
inductive Stop where
  | err (e : Lz4Error) (out : Mem)
  | fault

abbrev Run := Except Stop

def load (limit : Nat) (out : Mem) (src n : Nat) : Run Mem :=
  if src + n ≤ limit then .ok (fun j => out (src + j)) else .error .fault

def loadInput (input : List UInt8) (src n : Nat) : Run Mem :=
  if src + n ≤ input.length then .ok (fun j => input.getD (src + j) 0) else .error .fault

def write (out : Mem) (dst n : Nat) (chunk : Mem) : Mem :=
  fun k => if dst ≤ k ∧ k < dst + n then chunk (k - dst) else out k

def store (limit : Nat) (out : Mem) (dst n : Nat) (chunk : Mem) : Run Mem :=
  if dst + n ≤ limit then .ok (write out dst n chunk) else .error .fault

/-- `ptr.sub(d)`, which may not step before the start of the buffer. -/
def ptrSub (p d : Nat) : Run Nat := if d ≤ p then .ok (p - d) else .error .fault

/-- `copy_nonoverlapping` inside the output: overlapping ranges are undefined behaviour. -/
def copyNonoverlapping (limit : Nat) (out : Mem) (src dst n : Nat) : Run Mem :=
  if src + n ≤ dst ∨ dst + n ≤ src then do
    let chunk ← load limit out src n
    store limit out dst n chunk
  else .error .fault

def checkedAdd (a b : Nat) : Option Nat := if a + b < usizeLimit then some (a + b) else none

def wrappingSub (a b : Nat) : Nat := (a + usizeLimit - b) % usizeLimit

/-- The 32-byte strides of `wide_copy`. -/
def wideCopy (input : List UInt8) (limit stop : Nat) : Nat → Nat → Nat → Mem → Run Mem
  | 0, _, _, _ => .error .fault
  | fuel + 1, src, dst, out => do
    let chunk ← loadInput input src 32
    let out ← store limit out dst 32 chunk
    if stop ≤ dst + 32 then .ok out else wideCopy input limit stop fuel (src + 32) (dst + 32) out

/-- Phase 2 of `copy_match`: two ordered 16-byte moves at a distance of at least 16. -/
def copyMatchFar (limit stop : Nat) : Nat → Nat → Nat → Mem → Run Mem
  | 0, _, _, _ => .error .fault
  | fuel + 1, src, dst, out => do
    let a ← load limit out src 16
    let out ← store limit out dst 16 a
    let b ← load limit out (src + 16) 16
    let out ← store limit out (dst + 16) 16 b
    if stop ≤ dst + 32 then .ok out else copyMatchFar limit stop fuel (src + 32) (dst + 32) out

/-- Phase 1 of `copy_match`: the distance doubles until it reaches 16. -/
def copyMatchNear (limit stop : Nat) : Nat → Nat → Nat → Mem → Run Mem
  | 0, _, _, _ => .error .fault
  | fuel + 1, dist, dst, out =>
    if dist < 16 then do
      let src ← ptrSub dst dist
      let chunk ← load limit out src 16
      let out ← store limit out dst 16 chunk
      if stop ≤ dst + dist then .ok out
      else copyMatchNear limit stop fuel (dist * 2) (dst + dist) out
    else do
      let src ← ptrSub dst dist
      copyMatchFar limit stop (stop - dst) src dst out

def copyMatch (limit : Nat) (out : Mem) (op offset len : Nat) : Run Mem := do
  let src ← ptrSub op offset
  if offset = 1 then do
    let byte ← load limit out src 1
    store limit out op len (fun _ => byte 0)
  else copyMatchNear limit (op + len) 16 offset op out

/-- The cursors of the decoder and its output. -/
structure Cursor where
  ip : Nat
  op : Nat
  out : Mem

/-- The extension-byte loop of a length, over the input from `ip` on. -/
def lengthExtension (out : Mem) : List UInt8 → Nat → Nat → Run (Nat × Nat)
  | [], _, _ => .error (.err .trunc out)
  | b :: rest, ip, len =>
    match checkedAdd len b.toNat with
    | none => .error (.err .len out)
    | some len => if b ≠ 255 then .ok (ip + 1, len) else lengthExtension out rest (ip + 1) len

/-- A length whose four bits are all set, which makes it `full`, is extended. -/
def readLength (out : Mem) (input : List UInt8) (ip len full : Nat) : Run (Nat × Nat) :=
  if len = full then lengthExtension out (input.drop ip) ip len else .ok (ip, len)

def matchTail (input : List UInt8) (limit rawLen : Nat) (token : UInt8) (offset : Nat)
    (c : Cursor) : Run Cursor := do
  let (ip, mlen) ← readLength c.out input c.ip ((token &&& 0x0F).toNat + 4) 19
  match checkedAdd c.op mlen with
  | none => .error (.err .len c.out)
  | some opEnd =>
    if rawLen < opEnd then .error (.err .out c.out)
    else do
      let out ← copyMatch limit c.out c.op offset mlen
      .ok ⟨ip, opEnd, out⟩

/-- `u16::from_le_bytes(input[ip..ip + 2])`. -/
def offsetAt (input : List UInt8) (ip : Nat) : Run Nat := do
  let bytes ← loadInput input ip 2
  .ok ((bytes 0).toNat + 256 * (bytes 1).toNat)

/-- What the body of the decoding loop does next. -/
inductive Next where
  | done (out : Mem)
  | more (c : Cursor)

def fastMatch (input : List UInt8) (limit rawLen : Nat) (token : UInt8) (offset : Nat) (c : Cursor) : Run Next :=
  let mlen := (token &&& 0x0F).toNat + 4
  if mlen < 19 then
    if rawLen < c.op + mlen then .error (.err .out c.out)
    else if 16 ≤ offset then do
      let src ← ptrSub c.op offset
      let out ← copyNonoverlapping limit c.out src c.op 16
      let out ← copyNonoverlapping limit out (src + 16) (c.op + 16) 16
      .ok (.more ⟨c.ip, c.op + mlen, out⟩)
    else do
      let out ← copyMatch limit c.out c.op offset mlen
      .ok (.more ⟨c.ip, c.op + mlen, out⟩)
  else do
    let c ← matchTail input limit rawLen token offset c
    .ok (.more c)

/-- The shortcut for a literal run of fewer than 15 bytes with input to spare. -/
def fastSequence (input : List UInt8) (limit rawLen : Nat) (c : Cursor) (token : UInt8) : Run Next := do
  let lit := (token >>> 4).toNat
  let chunk ← loadInput input (c.ip + 1) 16
  let out ← store limit c.out c.op 16 chunk
  if rawLen < c.op + lit then .error (.err .out out)
  else do
    let offset ← offsetAt input (c.ip + 1 + lit)
    if c.op + lit ≤ wrappingSub offset 1 then .error (.err .offset out)
    else fastMatch input limit rawLen token offset ⟨c.ip + 1 + lit + 2, c.op + lit, out⟩

/-- The literal run of the general path; the cursor stands behind the token. -/
def literalRun (input : List UInt8) (limit rawLen : Nat) (c : Cursor) (lit : Nat) : Run Cursor :=
  if lit ≠ 0 then
    match checkedAdd c.ip lit with
    | none => .error (.err .len c.out)
    | some ipEnd =>
      if input.length < ipEnd then .error (.err .trunc c.out)
      else if rawLen < c.op + lit then .error (.err .out c.out)
      else if ipEnd + 31 ≤ input.length then do
        let out ← wideCopy input limit (c.op + lit) lit c.ip c.op c.out
        .ok ⟨ipEnd, c.op + lit, out⟩
      else do
        let chunk ← loadInput input c.ip lit
        let out ← store limit c.out c.op lit chunk
        .ok ⟨ipEnd, c.op + lit, out⟩
  else .ok c

/-- The general path behind its literals: the end of the block or a match. -/
def generalMatch (input : List UInt8) (limit rawLen : Nat) (token : UInt8) (c : Cursor) : Run Next :=
  if c.ip = input.length then
    if c.op = rawLen then .ok (.done c.out) else .error (.err .short c.out)
  else if input.length < c.ip + 2 then .error (.err .trunc c.out)
  else do
    let offset ← offsetAt input c.ip
    if c.op ≤ wrappingSub offset 1 then .error (.err .offset c.out)
    else do
      let c ← matchTail input limit rawLen token offset ⟨c.ip + 2, c.op, c.out⟩
      .ok (.more c)

def generalSequence (input : List UInt8) (limit rawLen : Nat) (c : Cursor) (token : UInt8) : Run Next := do
  let (ip, lit) ← readLength c.out input (c.ip + 1) (token >>> 4).toNat 15
  let c ← literalRun input limit rawLen ⟨ip, c.op, c.out⟩ lit
  generalMatch input limit rawLen token c

/-- One round of the decoding loop. -/
def round (input : List UInt8) (limit rawLen : Nat) (c : Cursor) : Run Next :=
  match input[c.ip]? with
  | none => .error (.err .trunc c.out)
  | some token =>
    if c.ip + 19 ≤ input.length ∧ (token >>> 4).toNat < 15 then
      fastSequence input limit rawLen c token
    else generalSequence input limit rawLen c token

def decodeLoop (input : List UInt8) (limit rawLen : Nat) : Nat → Cursor → Run Mem
  | 0, _ => .error .fault
  | fuel + 1, c => do
    match ← round input limit rawLen c with
    | .done out => .ok out
    | .more c => decodeLoop input limit rawLen fuel c

/-- `decompress_padded`: the entry assertion, then the loop. Every round consumes
input, so the input's length bounds the number of rounds. -/
def decompressPadded (input : ByteSlice) (out : OutSlice) (rawLen : Nat) : Run Mem :=
  match checkedAdd rawLen outPad with
  | none => .error .fault
  | some need =>
    if out.len < need then .error .fault
    else decodeLoop input.bytes out.len rawLen (input.bytes.length + 1) ⟨0, 0, out.mem⟩

end Lz4dec

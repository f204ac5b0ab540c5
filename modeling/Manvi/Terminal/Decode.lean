import Manvi.Encoding.Markers
import Manvi.Encoding.Space
import Manvi.Encoding.Utf8

/-! What a terminal sends, decoded into events one at a time. -/
namespace Manvi.Terminal
open Manvi.Encoding

/-- A set of modifier keys: Shift, Alt, Ctrl and Meta. -/
structure Mod where
  shift : Bool
  alt : Bool
  ctrl : Bool
  meta_ : Bool
  deriving Repr, DecidableEq

def Mod.none : Mod := ⟨false,false,false,false⟩

inductive KeyType where
  | runes
  | enter
  | tab
  | backTab
  | backspace
  | delete
  | insert
  | escape
  | up
  | down
  | left
  | right
  | home
  | end_
  | pageUp
  | pageDown
  | space
  | f (n : Fin 12)
  deriving Repr, DecidableEq

structure Key where
  type : KeyType
  runes : List Char
  mod : Mod
  deriving Repr, DecidableEq

inductive MouseAction where
  | press
  | release
  | motion
  | wheelUp
  | wheelDown
  | wheelLeft
  | wheelRight
  deriving Repr, DecidableEq

inductive MouseButton where
  | none
  | left
  | middle
  | right
  deriving Repr, DecidableEq

/-- A pointer event, in cells counted from zero. -/
structure Mouse where
  x : ℤ
  y : ℤ
  button : MouseButton
  action : MouseAction
  mod : Mod
  deriving Repr, DecidableEq

inductive Event where
  | key (k : Key)
  | mouse (m : Mouse)
  | paste (text : List Char)
  | focus (gained : Bool)
  | error (err : String)
  deriving Repr, DecidableEq

def Event.named (type : KeyType) (mod : Mod) : Event := .key ⟨type,[],mod⟩

def Event.rune (r : Char) (mod : Mod) : Event := .key ⟨.runes,[r],mod⟩

/-- The bytes that may follow a first byte at its second place, and how many bytes it asks for. -/
def leading (c : UInt8) : Option (ℕ × UInt8 × UInt8) :=
  if c < 0xc2 then none
  else if c ≤ 0xdf then some (2,0x80,0xbf)
  else if c = 0xe0 then some (3,0xa0,0xbf)
  else if c = 0xed then some (3,0x80,0x9f)
  else if c ≤ 0xef then some (3,0x80,0xbf)
  else if c = 0xf0 then some (4,0x90,0xbf)
  else if c ≤ 0xf3 then some (4,0x80,0xbf)
  else if c = 0xf4 then some (4,0x80,0x8f)
  else none

/-- Bytes that begin with a whole character, or with what can be none, as utf8.FullRune tells. -/
def fullRune : Bytes → Bool
  | [] => false
  | c :: s => match leading c with
    | none => true
    | some (size,low,high) =>
      if size ≤ s.length+1 then true
      else match s with
        | [] => false
        | d :: s' => if d < low ∨ high < d then true else match s' with
          | [] => false
          | e :: _ => decide (e < 0x80 ∨ 0xbf < e)

/-- Everything that is not an escape sequence. -/
def decodeByte (buf : Bytes) : Option Event × ℕ := match buf with
  | [] => (none,0)
  | b :: _ =>
    if b = 0x0d then (some (.named .enter .none),1)
    else if b = 0x09 then (some (.named .tab .none),1)
    else if b = 0x7f ∨ b = 0x08 then (some (.named .backspace .none),1)
    else if b = 0x00 then (some (.named .space { Mod.none with ctrl := true }),1)
    else if b = 0x20 then (some (.key ⟨.space,[' '],.none⟩),1)
    else if b < 0x20 then (some (.rune (Char.ofNat (b.toNat+96)) { Mod.none with ctrl := true }),1)
    else if b < 0x80 then (some (.rune (Char.ofNat b.toNat) .none),1)
    else match firstRune buf with
      | some r => (some (.rune r .none),r.utf8Size)
      | none => if fullRune buf then (some (.rune '\uFFFD' .none),1) else (none,0)

def pasteStart : Bytes := [0x1b,0x5b,0x32,0x30,0x30,0x7e]

def pasteEnd : Bytes := [0x1b,0x5b,0x32,0x30,0x31,0x7e]

/-- What of a character is kept: no control characters, and a CR as a newline. -/
def keepRune (r : Char) : Option Char :=
  if r = '\n' ∨ r = '\t' then some r
  else if r = '\r' then some '\n'
  else if r.toNat < 0x20 ∨ r.toNat = 0x7f then none
  else some r

def sanitizePaste (text : Bytes) : List Char := (runes text).filterMap keepRune

/-- How much of a paste that waits for its end was searched. -/
abbrev PasteScan := Option ℕ

/-- Everything up to the closing marker, from where the last search stopped. -/
def decodePaste (buf : Bytes) (flush : Bool) (scan : PasteScan) : Option Event × ℕ × PasteScan :=
  let rest := buf.drop pasteStart.length
  let from_ := match scan with
    | some searched => if searched ≤ rest.length then searched-(pasteEnd.length-1) else 0
    | none => 0
  match index (rest.drop from_) pasteEnd with
  | none =>
    if flush then (some (.paste (sanitizePaste rest)),buf.length,scan)
    else (none,0,scan.map (fun _ => rest.length))
  | some i => (some (.paste (sanitizePaste (rest.take (i+from_)))),
    pasteStart.length+(i+from_)+pasteEnd.length,scan)

/-- A bit of a number in two's complement. -/
def bit (n : ℤ) (k : ℕ) : Bool := n/2^k%2 = 1

def buttonFor (low : ℤ) : MouseButton := if low = 0 then .left else if low = 1 then
    .middle else if low = 2 then .right else .none

/-- The numbers of a 64-bit int. -/
def wrapInt (n : ℤ) : ℤ := n.bmod (2^64)

/-- A mouse report: button, column and row. -/
def decodeMouse (body : Bytes) (press : Bool) : Option Event := match body.splitOn 0x3b with
  | [a,b,c] => match parseInt64 a,parseInt64 b,parseInt64 c with
    | some code,some x,some y =>
      let mod : Mod := ⟨bit code 2,bit code 3,bit code 4,false⟩
      let action := fun (button : MouseButton) (act : MouseAction) =>
        some (.mouse ⟨wrapInt (x-1),wrapInt (y-1),button,act,mod⟩)
      if bit code 6 then
        action .none (if code%4 = 0 then .wheelUp else if code%4 = 1 then
          .wheelDown else if code%4 = 2 then .wheelLeft else .wheelRight)
      else if bit code 5 then action (buttonFor (code%4)) .motion
      else action (buttonFor (code%4)) (if press then .press else .release)
    | _,_,_ => none
  | _ => none

/-- The numbers of a sequence, zero where there is none. -/
def parseParams (body : Bytes) : List ℤ :=
  if body = [] then [] else (body.splitOn 0x3b).map (fun f =>
    (parseInt64 (f.takeWhile (· ≠ 0x3a))).getD 0)

/-- The modifiers that a parameter tells, one more than their bits. -/
def modFromParam (params : List ℤ) (idx : ℕ) : Mod := match params[idx]? with
  | none => .none
  | some p => if p < 1 then .none else ⟨bit (p-1) 0,bit (p-1) 1,bit (p-1) 2,bit (p-1) 3⟩

def tildeKeys : List (ℤ × KeyType) :=
  [(1,.home),(7,.home),(2,.insert),(3,.delete),(4,.end_),(8,.end_),(5,.pageUp),(6,.pageDown),
  (11,.f 0),(12,.f 1),(13,.f 2),(14,.f 3),(15,.f 4),(17,.f 5),(18,.f 6),(19,.f 7),(20,.f 8),
  (21,.f 9),(23,.f 10),(24,.f 11)]

def tildeKey (n : ℤ) (mod : Mod) : Option Event :=
  (tildeKeys.lookup n).map (fun type => .named type mod)

def kittyKey (r : Char) (mod : Mod) : Event :=
  if r.toNat = 13 then .named .enter mod
  else if r.toNat = 9 then .named (if mod.shift then .backTab else .tab) mod
  else if r.toNat = 27 then .named .escape mod
  else if r.toNat = 127 then .named .backspace mod
  else if r = ' ' then .key ⟨.space,[' '],mod⟩
  else .rune r mod

/-- The keys that a final byte names, after ESC [ and after ESC O. -/
def letterKeys : List (UInt8 × KeyType) :=
  [(0x41,.up),(0x42,.down),(0x43,.right),(0x44,.left),(0x48,.home),(0x46,.end_),(0x50,.f 0),
  (0x51,.f 1),(0x52,.f 2),(0x53,.f 3)]

/-- The event of a whole sequence. One that is not known gives none. -/
def csiEvent (body : Bytes) (final : UInt8) : Option Event :=
  if body.head? = some 0x3c ∧ (final = 0x4d ∨ final = 0x6d) then
    decodeMouse body.tail (final = 0x4d)
  else if final = 0x49 then some (.focus true)
  else if final = 0x4f then some (.focus false)
  else if final = 0x5a then some (.named .backTab { Mod.none with shift := true })
  else
    let params := parseParams body
    let mod := modFromParam params 1
    match letterKeys.lookup final with
    | some type => some (.named type mod)
    | none =>
      if final = 0x75 then match params.head? with
        | none => none
        | some p =>
          let r := p.bmod (2^32)
          if 0 < p ∧ 0 ≤ r ∧ r.toNat.isValidChar then some (kittyKey (Char.ofNat r.toNat) mod)
            else none
      else if final = 0x7e then params.head?.bind (fun n => tildeKey n mod)
      else none

/-- The end of a sequence: its body and its final byte, nothing yet, or a byte that cannot stand in
it. -/
inductive CsiEnd where
  | final (body : Bytes) (c : UInt8)
  | open_
  | broken
  deriving Repr, DecidableEq

def csiEnd : Bytes → CsiEnd
  | [] => .open_
  | c :: s =>
    if 0x40 ≤ c ∧ c ≤ 0x7e then .final [] c
    else if c < 0x20 ∨ 0x3f < c then .broken
    else match csiEnd s with
      | .final body c' => .final (c :: body) c'
      | e => e

def escapeKey : Option Event := some (.named .escape .none)

def decodeCSI (buf : Bytes) (flush : Bool) (scan : PasteScan) : Option Event × ℕ × PasteScan :=
  if pasteStart <+: buf then decodePaste buf flush scan
  else match csiEnd (buf.drop 2) with
    | .broken => (escapeKey,1,scan)
    | .open_ => if flush then (escapeKey,1,scan) else (none,0,scan)
    | .final body c => (csiEvent body c,body.length+3,scan)

def decodeSS3 (buf : Bytes) (flush : Bool) : Option Event × ℕ := match buf.drop 2 with
  | [] => if flush then (escapeKey,1) else (none,0)
  | c :: _ => ((letterKeys.lookup c).map (fun type => .named type .none),3)

/-- An event with Alt. -/
def Event.withAlt : Event → Event
  | .key k => .key { k with mod := { k.mod with alt := true } }
  | e => e

/-- Anything that begins with ESC. -/
def decodeEscape (buf : Bytes) (flush : Bool) (scan : PasteScan) : Option Event × ℕ × PasteScan :=
  match buf.tail with
  | [] => if flush then (escapeKey,1,scan) else (none,0,scan)
  | c :: _ =>
    if c = 0x5b then decodeCSI buf flush scan
    else if c = 0x4f then ((decodeSS3 buf flush).1,(decodeSS3 buf flush).2,scan)
    else if c = 0x1b then (escapeKey,1,scan)
    else
      let (ev,n) := decodeByte buf.tail
      if n = 0 then (none,0,scan) else (ev.map Event.withAlt,n+1,scan)

/-- One event from the head of a buffer, how many bytes it takes, and what was searched. -/
def decodeAt (buf : Bytes) (flush : Bool) (scan : PasteScan) : Option Event × ℕ × PasteScan :=
  if buf = [] then (none,0,scan)
  else if buf.head? = some 0x1b then decodeEscape buf flush scan
  else ((decodeByte buf).1,(decodeByte buf).2,scan)

def decode (buf : Bytes) (flush : Bool) : Option Event × ℕ :=
  ((decodeAt buf flush none).1,(decodeAt buf flush none).2.1)

end Manvi.Terminal

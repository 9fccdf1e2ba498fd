import Mathlib.Data.List.Basic

namespace RemoteFileExplorer.Glob

-- A pattern that is not well formed, or an index outside a slice.
inductive Failure where
  | badPattern
  | panic
  deriving DecidableEq, Repr

abbrev Bytes := List UInt8

def bytesOf (text : String) : Bytes := text.toUTF8.toList

def slash : UInt8 := 47
def star : UInt8 := 42
def question : UInt8 := 63
def backslash : UInt8 := 92
def openBracket : UInt8 := 91
def closeBracket : UInt8 := 93
def caret : UInt8 := 94
def dash : UInt8 := 45

def chunkLength : Bool → Bytes → Nat
  | _,[] => 0
  | inRange,c::rest =>
    if c = backslash then
      match rest with
      | [] => 1
      | _::later => 2 + chunkLength inRange later
    else if c = openBracket then 1 + chunkLength true rest
    else if c = closeBracket then 1 + chunkLength false rest
    else if c = star ∧ inRange = false then 0
    else 1 + chunkLength inRange rest

def scanChunk (pattern : Bytes) : Bool × Bytes × Bytes :=
  let stripped := pattern.dropWhile (· == star)
  let length := chunkLength false stripped
  (pattern.head? == some star,stripped.take length,stripped.drop length)

def continuation (b : UInt8) : Bool := 0x80 ≤ b && b ≤ 0xBF

def runeWidth (b : UInt8) : Option Nat :=
  if b ≤ 0x7F then some 1 else if 0xC2 ≤ b && b ≤ 0xDF then some 2 else if 0xE0 ≤ b && b ≤ 0xEF then some 3 else
  if 0xF0 ≤ b && b ≤ 0xF4 then some 4 else none

-- The bytes after the first of a well formed sequence.
def wellFormed : Bytes → Bool
  | [a] => a ≤ 0x7F
  | [_,b] => continuation b
  | [a,b,c] => continuation b && continuation c && !(a == 0xE0 && b < 0xA0) && !(a == 0xED && 0x9F < b)
  | [a,b,c,d] => continuation b && continuation c && continuation d && !(a == 0xF0 && b < 0x90) && !(a == 0xF4 && 0x8F < b)
  | _ => false

def runeValue : Bytes → Nat
  | [a] => a.toNat
  | [a,b] => (a.toNat % 32) * 64 + b.toNat % 64
  | [a,b,c] => (a.toNat % 16) * 4096 + (b.toNat % 64) * 64 + c.toNat % 64
  | [a,b,c,d] => (a.toNat % 8) * 262144 + (b.toNat % 64) * 4096 + (c.toNat % 64) * 64 + d.toNat % 64
  | _ => 0xFFFD

def decodeRune : Bytes → Nat × Nat
  | [] => (0xFFFD,0)
  | a::rest =>
    match runeWidth a with
    | none => (0xFFFD,1)
    | some width =>
      let sequence := (a::rest).take width
      if sequence.length < width ∨ wellFormed sequence = false then (0xFFFD,1) else (runeValue sequence,width)

def getEsc (chunk : Bytes) : Except Failure (Nat × Bytes) :=
  match chunk with
  | [] => .error .badPattern
  | c::rest =>
    if c = dash ∨ c = closeBracket then .error .badPattern else
    let chunk := if c = backslash then rest else chunk
    if chunk = [] then .error .badPattern else
    let (rune,width) := decodeRune chunk
    if rune = 0xFFFD ∧ width = 1 then .error .badPattern else
    let rest := chunk.drop width
    if rest = [] then .error .badPattern else .ok (rune,rest)

def matchRanges (rune : Nat) : Nat → Bytes → Bool → Nat → Except Failure (Bool × Bytes)
  | 0,_,_,_ => .error .panic
  | fuel + 1,chunk,matched,ranges =>
    if chunk.head? = some closeBracket ∧ 0 < ranges then .ok (matched,chunk.tail) else do
    let (low,rest) ← getEsc chunk
    match rest with
    | [] => .error .panic
    | c::later =>
      let (high,rest) ← if c = dash then getEsc later else .ok (low,rest)
      matchRanges rune fuel rest (matched || (decide (low ≤ rune) && decide (rune ≤ high))) (ranges + 1)

def matchChunk : Nat → Bytes → Bytes → Bool → Except Failure (Option Bytes)
  | 0,_,_,_ => .error .panic
  | _ + 1,[],s,failed => .ok (if failed then none else some s)
  | fuel + 1,c::rest,s,failed =>
    let failed := failed || s.isEmpty
    if c = openBracket then do
      let (rune,width) := if failed then (0,0) else decodeRune s
      let negated := rest.head? == some caret
      let (matched,rest) ← matchRanges rune (rest.length + 1) (if negated then rest.tail else rest) false 0
      matchChunk fuel rest (s.drop width) (failed || matched == negated)
    else if c = question then
      if failed then matchChunk fuel rest s failed
      else matchChunk fuel rest (s.drop (decodeRune s).2) (s.head? == some slash)
    else do
      let (literal,rest) ← if c = backslash then (match rest with | [] => .error .badPattern | d::later => .ok (d,later)) else .ok (c,rest)
      if failed then matchChunk fuel rest s failed else matchChunk fuel rest s.tail (s.head? != some literal)

def runChunk (chunk s : Bytes) : Except Failure (Option Bytes) := matchChunk (chunk.length + 1) chunk s false

def starSearch (chunk : Bytes) (last : Bool) : Bytes → Except Failure (Option Bytes)
  | [] => .ok none
  | c::rest =>
    if c = slash then .ok none else do
    match ← runChunk chunk rest with
    | some left => if last && !left.isEmpty then starSearch chunk last rest else .ok (some left)
    | none => starSearch chunk last rest

def remainder : Nat → Bytes → Except Failure Bool
  | 0,_ => .ok false
  | _ + 1,[] => .ok false
  | fuel + 1,pattern => do
    let (_,chunk,rest) := scanChunk pattern
    let _ ← runChunk chunk []
    remainder fuel rest

def matchLoop : Nat → Bytes → Bytes → Except Failure Bool
  | 0,_,_ => .error .panic
  | _ + 1,[],name => .ok name.isEmpty
  | fuel + 1,pattern,name => do
    let (starred,chunk,rest) := scanChunk pattern
    if starred && chunk.isEmpty then .ok (!name.contains slash) else
    let first ← runChunk chunk name
    match first.filter fun left => left.isEmpty || !rest.isEmpty with
    | some left => matchLoop fuel rest left
    | none =>
      match ← (if starred then starSearch chunk rest.isEmpty name else .ok none) with
      | some left => matchLoop fuel rest left
      | none => remainder (rest.length + 1) rest

-- `matches` of the sidecar is a port of `path.Match` of the Go library; both
-- sides of a search are read as this function.
def matches_ (pattern name : String) : Except Failure Bool :=
  matchLoop ((bytesOf pattern).length + 1) (bytesOf pattern) (bytesOf name)

end RemoteFileExplorer.Glob

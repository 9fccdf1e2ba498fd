import RemoteFileExplorer.PathTexts

namespace RemoteFileExplorer.TransferNames
open PathTexts

-- str::len counts bytes.
def utf8Len (text : Text) : Nat := (text.map Char.utf8Size).sum

def isControl (c : Char) : Bool := c.toNat < 0x20 || (0x7f ≤ c.toNat && c.toNat < 0xa0)

def isInvisible (c : Char) : Bool :=
  (0x200b ≤ c.toNat && c.toNat ≤ 0x200f) || (0x202a ≤ c.toNat && c.toNat ≤ 0x202e) ||
    (0x2060 ≤ c.toNat && c.toNat ≤ 0x2064) || (0x2066 ≤ c.toNat && c.toNat ≤ 0x2069) || c.toNat == 0xfeff

def isSeparator (c : Char) : Bool := c == '/' || c == '\\'

def shown (text : Text) : Text := text.filter (fun c => !isControl c && !isInvisible c)

def maxRemotePath : Nat := 4096

def validRemote (path : Text) : Bool :=
  trimSpace path != [] && !path.contains (Char.ofNat 0) && decide (utf8Len path ≤ maxRemotePath)

-- The name before the last dot and the rest, when the rest is short.
def splitExt (name : Text) : Text × Text :=
  let after := name.rtakeWhile (· ≠ '.')
  let stem := name.take (name.length - after.length - 1)
  if '.' ∈ name ∧ stem ≠ [] ∧ utf8Len ('.'::after) ≤ 16 then (stem,'.'::after) else (name,[])

def numberedName (name : Text) (n : Nat) : Text :=
  if n = 0 then name else
  let (stem,ext) := splitExt name
  stem ++ [' ','('] ++ Nat.toDigits 10 n ++ [')'] ++ ext

def asciiUpper (c : Char) : Char := if 'a' ≤ c ∧ c ≤ 'z' then Char.ofNat (c.toNat - 32) else c

local instance texts_lawful : LawfulBEq Text := inferInstance

def isWindowsDevice (name : Text) : Bool :=
  let up := ((name.takeWhile (· ≠ '.')).rdropWhile isSpace).map asciiUpper
  up ∈ [['C','O','N'],['P','R','N'],['A','U','X'],['N','U','L']] ||
    (utf8Len up == 4 && (up.take 3 == ['C','O','M'] || up.take 3 == ['L','P','T']) && ((up.drop 3).all fun c => '1' ≤ c && c ≤ '9'))

-- The longest beginning of whole characters that fits.
def takeBytes : Nat → Text → Text
  | _,[] => []
  | room,c::rest => if c.utf8Size ≤ room then c::takeBytes (room - c.utf8Size) rest else []

def edge (c : Char) : Bool := c == '.' || isSpace c

def unnamed : Text := ['d','o','w','n','l','o','a','d']

def safeName (remotePath : Text) : Text :=
  let last := ((remotePath.splitOnP isSeparator).reverse.find? (· ≠ [])).getD []
  let cleaned := (shown last).map (fun c => if c ∈ ['<','>',':','"','|','?','*'] then '_' else c)
  let trimmed := (cleaned.dropWhile edge).rdropWhile edge
  if trimmed = [] then unnamed else
  let trimmed := if isWindowsDevice trimmed then '_' :: trimmed else trimmed
  if utf8Len trimmed ≤ 200 then trimmed else
  let (stem,ext) := splitExt trimmed
  let keep := max (200 - utf8Len ext) 1
  let short := (takeBytes (min keep (utf8Len stem)) stem).rdropWhile edge
  (if short = [] then unnamed else short) ++ ext

-- Two names of a remote folder that get one local name.
example : safeName "/srv/a:b".toList = "a_b".toList ∧ safeName "/srv/a?b".toList = "a_b".toList := by decide

def remoteFileName (raw : Text) : Option Text :=
  let cleaned := trimSpace ((shown raw).map (fun c => if isSeparator c then '_' else c))
  if cleaned = [] ∨ cleaned = ['.'] ∨ cleaned = ['.','.'] then none else some cleaned

def joinRemote (dir name : Text) : Text :=
  let separator := if '\\' ∈ dir ∧ '/' ∉ dir then '\\' else '/'
  dir.rdropWhile isSeparator ++ separator :: name

def numberedRemote (path : Text) (n : Nat) : Text :=
  let name := path.rtakeWhile (fun c => !isSeparator c)
  path.take (path.length - name.length) ++ numberedName name n

end RemoteFileExplorer.TransferNames

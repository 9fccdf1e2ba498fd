import RemoteFileExplorer.PathTexts

namespace RemoteFileExplorer.CertPins
open PathTexts

-- String.prototype.trim: white space and line terminators, among them the byte
-- order mark but not U+0085.
def isJsSpace (c : Char) : Bool := c.toNat == 0xfeff || isSpace c && c.toNat != 0x85

def jsTrim (text : Text) : Text := (text.dropWhile isJsSpace).rdropWhile isJsSpace

def isHexDigit (c : Char) : Bool := c.isDigit || (97 ≤ c.toNat && c.toNat ≤ 102)

structure Pin where
  hex : Text
  digits : hex.length = 64 ∧ hex.all isHexDigit = true
  deriving DecidableEq

-- No letter outside ASCII becomes a hexadecimal digit when it is lowered.
def normalizeFingerprint (fingerprint : Text) : Option Pin :=
  let hex := ((jsTrim fingerprint).filter (· != ':')).map Char.toLower
  if digits : hex.length = 64 ∧ hex.all isHexDigit = true then some ⟨hex,digits⟩ else none

end RemoteFileExplorer.CertPins

import RemoteFileExplorer.Glob
import RemoteFileExplorer.DirectoryIndex

namespace RemoteFileExplorer.SearchFilters
open FileTree

-- Lower-casing of the two standard libraries: strings.ToLower maps character
-- by character, str::to_lowercase knows the special cases of Unicode.
structure Casing where
  toLower : String → String
  toLowercase : String → String

def categoryExtensions : List (String × List String) :=
  [("image",["jpg","jpeg","png","gif","webp","bmp","heic","heif","svg","avif","tiff"]),
    ("video",["mp4","mkv","avi","mov","wmv","flv","webm","m4v","3gp","mpg","mpeg"]),
    ("audio",["mp3","wav","flac","ogg","m4a","aac","wma","opus","mid"]),
    ("document",["pdf","doc","docx","xls","xlsx","ppt","pptx","txt","md","odt","ods","odp","rtf","csv","epub"]),
    ("archive",["zip","rar","7z","tar","gz","bz2","xz","zst","iso","jar"])]

def afterDot (name : Name) : Option String :=
  if name.toList.contains '.' then some (String.ofList (name.toList.reverse.takeWhile (· ≠ '.')).reverse) else none

def categoryOf (ext : String) : String := ((categoryExtensions.find? fun category => category.2.contains ext).map Prod.fst).getD "other"

-- Parsed and validated; an empty glob says that the needle counts. Times are
-- nanoseconds since 1970.
structure Filters where
  glob : String
  needle : String
  types : Option (List String)
  exts : Option (List String)
  minSize : Option Int
  maxSize : Option Int
  modAfter : Option Int
  modBefore : Option Int
  deriving DecidableEq, Repr

def infixOf (needle text : List Char) : Bool := text.tails.any fun tail => needle.isPrefixOf tail

def matchLower (f : Filters) (lower : String) : Bool :=
  if f.glob ≠ "" then (match Glob.matches_ f.glob lower with | .ok matched => matched | .error _ => false)
  else infixOf f.needle.toList lower.toList

def atLeast (bound : Option Int) (value : Int) : Bool := bound.elim true fun b => decide (b ≤ value)
def atMost (bound : Option Int) (value : Int) : Bool := bound.elim true fun b => decide (value ≤ b)

def matchAttrs (f : Filters) (ext : String) (isDir : Bool) (size : Nat) (modified : Int) : Bool :=
  (f.types.elim true fun types => types.contains (if isDir then "folder" else categoryOf ext)) &&
  (f.exts.elim true fun exts => !isDir && exts.contains ext) &&
  (if f.minSize.isSome || f.maxSize.isSome then !isDir && atLeast f.minSize size && atMost f.maxSize size else true) &&
  atLeast f.modAfter modified && atMost f.modBefore modified

section Agent
variable (casing : Casing)

def extOfName (name : Name) : String := casing.toLower ((afterDot name).getD "")
def matchName (f : Filters) (name : Name) : Bool := matchLower f (casing.toLower name)
def matchEntry (f : Filters) (name : Name) (isDir : Bool) (size : Nat) (modified : Int) : Bool :=
  matchAttrs f (extOfName casing name) isDir size modified

end Agent

-- UnixNano is 64 bits wide and wraps around outside of it.
def unixNano (t : Int) : Int := t.bmod (2^64)

def toWireFilters (f : Filters) : Filters := {f with modAfter := f.modAfter.map unixNano,modBefore := f.modBefore.map unixNano}

section Sidecar
variable (casing : Casing)

def compile (f : Filters) : Filters := {f with glob := casing.toLowercase f.glob,needle := casing.toLowercase f.needle}

def isAscii (text : String) : Bool := text.toList.all fun c => c.toNat < 128

def lowerAscii (text : String) : String := String.ofList (text.toList.map Char.toLower)

def containsIgnoreAsciiCase (haystack needle : List Char) : Bool :=
  match needle with
  | [] => true
  | first::rest => haystack.tails.any fun tail =>
    match tail with
    | [] => false
    | h::later => decide (rest.length ≤ later.length) && (h.toLower == first) && (later.zip rest).all fun pair => pair.1.toLower == pair.2

def matchNameFast (f : Filters) (name : Name) : Bool :=
  if !isAscii name then matchLower f (casing.toLowercase name) else
  if f.glob = "" && isAscii f.needle then containsIgnoreAsciiCase name.toList f.needle.toList else
  matchLower f (lowerAscii name)

def extOf (name : Name) : String := (afterDot name).elim "" casing.toLowercase

end Sidecar

end RemoteFileExplorer.SearchFilters

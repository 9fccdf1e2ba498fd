import RemoteFileExplorer.PathTexts

namespace RemoteFileExplorer.RootSettings
open PathTexts

-- The config table. A key that was never written is not the same as one
-- written with an empty value.
abbrev Config := List (String × Text)

def getConfig (config : Config) (key : String) : Text := (config.lookup key).getD []
def hasConfig (config : Config) (key : String) : Bool := (config.lookup key).isSome
def setConfig (config : Config) (key : String) (value : Text) : Config := (key,value)::config.filter (fun row => row.1 != key)

def keyReadOnly := "readOnly"
def keyRoots := "roots"
def keyAgentName := "agentName"
def keyMaxUploadBPS := "maxUploadBytesPerSec"
def keyMaxDownloadBPS := "maxDownloadBytesPerSec"
def keyAllowSharing := "allowSharing"
def keyPhotoBackupRoot := "photoBackupRoot"

structure Store where
  config : Config
  readOnly : Bool
  roots : List Text
  agentName : Text
  maxUploadBytesPS : Nat
  maxDownloadBytesPS : Nat
  allowSharing : Bool
  photoBackupRoot : Text
  deriving DecidableEq, Repr

local instance texts_lawful : LawfulBEq Text := inferInstance

def normalizeOnto (cwd : Option Text) : List Text → List Text → List Text
  | out,[] => out
  | out,r::rest =>
    let trimmed := trimSpace r
    if trimmed = [] then normalizeOnto cwd out rest else
    let c := absolute cwd (clean trimmed)
    if c ∈ out then normalizeOnto cwd out rest else normalizeOnto cwd (out ++ [c]) rest

def normalizeRoots (cwd : Option Text) (roots : List Text) : List Text := normalizeOnto cwd [] roots

def joinRoots (roots : List Text) : Text := ['\n'].intercalate roots
def splitRoots (cwd : Option Text) (value : Text) : List Text := normalizeRoots cwd (value.splitOn '\n')

def setRoots (cwd : Option Text) (s : Store) (roots : List Text) : Store :=
  let norm := normalizeRoots cwd roots
  {s with config := setConfig s.config keyRoots (joinRoots norm),roots := norm}

def boolToStr (b : Bool) : Text := if b then "true".toList else "false".toList

-- strconv.ParseInt in base ten with 64 bits, of which only the values from 0 pass.
def parseBandwidth (value : Text) : Option Nat :=
  let digits := match value with
    | '+'::rest => rest
    | '-'::rest => rest
    | _ => value
  let n : Nat := digits.foldl (fun n c => 10 * n + (c.toNat - '0'.toNat)) 0
  if digits = [] ∨ ¬ digits.all Char.isDigit then none else
  if value.head? = some '-' then (if n = 0 then some 0 else none) else
  if n < 2 ^ 63 then some n else none

inductive LoadError where
  | invalidValue (key : String) (value : Text)
  deriving DecidableEq, Repr

def loadBandwidth (config : Config) (key : String) : Except LoadError Nat :=
  let value := getConfig config key
  if value = [] then .ok 0 else (parseBandwidth value).elim (.error (.invalidValue key value)) .ok

def loadSeeded (config : Config) (key : String) (seed : Text) : Text × Config :=
  let value := getConfig config key
  if value = [] then (seed,setConfig config key seed) else (value,config)

-- An empty list of roots is a value of its own, so here the row decides.
def loadRoots (cwd : Option Text) (config : Config) (seedRoots : List Text) : List Text × Config :=
  if hasConfig config keyRoots then (splitRoots cwd (getConfig config keyRoots),config) else
  (normalizeRoots cwd seedRoots,setConfig config keyRoots (joinRoots (normalizeRoots cwd seedRoots)))

def load (cwd : Option Text) (config : Config) (seedReadOnly : Bool) (seedRoots : List Text) (seedName : Text) : Except LoadError Store := do
  let (readOnly,config) := loadSeeded config keyReadOnly (boolToStr seedReadOnly)
  let (roots,config) := loadRoots cwd config seedRoots
  let (name,config) := loadSeeded config keyAgentName seedName
  let (sharing,config) := loadSeeded config keyAllowSharing (boolToStr false)
  let upload ← loadBandwidth config keyMaxUploadBPS
  let download ← loadBandwidth config keyMaxDownloadBPS
  return ⟨config,readOnly == boolToStr true,roots,name,upload,download,sharing == boolToStr true,getConfig config keyPhotoBackupRoot⟩

section Normalize
variable {cwd : Option Text}

def effective (cwd : Option Text) (r : Text) : Text := absolute cwd (clean (trimSpace r))

theorem normalizeOnto_cons (out : List Text) (r : Text) (rest : List Text) : normalizeOnto cwd out (r::rest) =
    if trimSpace r = [] ∨ effective cwd r ∈ out then normalizeOnto cwd out rest else normalizeOnto cwd (out ++ [effective cwd r]) rest := by
  rw [normalizeOnto]
  by_cases blank : trimSpace r = []
  · simp [blank]
  · simp [blank,effective]

theorem normalizeOnto_mem :
    root ∈ normalizeOnto cwd out roots ↔ root ∈ out ∨ ∃ r ∈ roots, trimSpace r ≠ [] ∧ effective cwd r = root := by
  induction roots generalizing out with
  | nil => simp [normalizeOnto]
  | cons r rest ih =>
    rw [normalizeOnto_cons]
    split
    · rename_i skipped
      rw [ih]
      constructor
      · rintro (old | ⟨other,member,named,same⟩)
        · exact .inl old
        · exact .inr ⟨other,List.mem_cons_of_mem _ member,named,same⟩
      · rintro (old | ⟨other,member,named,same⟩)
        · exact .inl old
        · rcases List.mem_cons.mp member with rfl | later
          · rcases skipped with blank | known
            · exact absurd blank named
            · exact .inl (same ▸ known)
          · exact .inr ⟨other,later,named,same⟩
    · rename_i taken
      obtain ⟨named,_⟩ := not_or.mp taken
      rw [ih]
      constructor
      · rintro (old | ⟨other,member,later,same⟩)
        · rcases List.mem_append.mp old with before | here
          · exact .inl before
          · exact .inr ⟨r,List.mem_cons_self,named,(List.mem_singleton.mp here).symm⟩
        · exact .inr ⟨other,List.mem_cons_of_mem _ member,later,same⟩
      · rintro (old | ⟨other,member,later,same⟩)
        · exact .inl (List.mem_append_left _ old)
        · rcases List.mem_cons.mp member with rfl | behind
          · exact .inl (List.mem_append_right _ (List.mem_singleton.mpr same.symm))
          · exact .inr ⟨other,behind,later,same⟩

theorem normalizeRoots_mem :
    root ∈ normalizeRoots cwd roots ↔ ∃ r ∈ roots, trimSpace r ≠ [] ∧ effective cwd r = root := by
  rw [normalizeRoots,normalizeOnto_mem]
  simp

theorem normalizeOnto_nodup (distinct : out.Nodup) : (normalizeOnto cwd out roots).Nodup := by
  induction roots generalizing out with
  | nil => exact distinct
  | cons r rest ih =>
    rw [normalizeOnto_cons]
    split
    · exact ih distinct
    · rename_i taken
      apply ih
      rw [List.nodup_append]
      refine ⟨distinct,by simp,?_⟩
      intro old member new here same
      rw [List.mem_singleton.mp here] at same
      exact taken (.inr (same ▸ member))

theorem normalizeOnto_same (settled : ∀ r ∈ roots, trimSpace r ≠ [] ∧ effective cwd r = r)
    (distinct : (out ++ roots).Nodup) : normalizeOnto cwd out roots = out ++ roots := by
  induction roots generalizing out with
  | nil => simp [normalizeOnto]
  | cons r rest ih =>
    obtain ⟨named,same⟩ := settled r List.mem_cons_self
    have fresh : r ∉ out := by
      intro member
      exact (List.nodup_append.mp distinct).2.2 r member r List.mem_cons_self rfl
    rw [normalizeOnto_cons,same,if_neg (by simp [named,fresh]),
      ih (fun other member => settled other (List.mem_cons_of_mem _ member)) (by simpa using distinct)]
    simp

def total (texts : List Text) : Nat := (texts.map List.length).sum

theorem normalizeOnto_total (shorter : ∀ r ∈ roots, (effective cwd r).length ≤ (trimSpace r).length) :
    total (normalizeOnto cwd out roots) ≤ total out + total (roots.map trimSpace) := by
  induction roots generalizing out with
  | nil => simp [normalizeOnto,total]
  | cons r rest ih =>
    have others : ∀ other ∈ rest, (effective cwd other).length ≤ (trimSpace other).length :=
      fun other member => shorter other (List.mem_cons_of_mem _ member)
    have here := shorter r List.mem_cons_self
    have whole : total ((r::rest).map trimSpace) = (trimSpace r).length + total (rest.map trimSpace) := by simp [total]
    have joined : total (out ++ [effective cwd r]) = total out + (effective cwd r).length := by simp [total]
    rw [normalizeOnto_cons]
    split
    · have bound := @ih out others
      omega
    · have bound := @ih (out ++ [effective cwd r]) others
      omega

end Normalize

-- A blank root is skipped. Any other has to stay one line, and the same line
-- when it is trimmed again.
def Durable (cwd : Option Text) (r : Text) : Prop :=
  trimSpace r ≠ [] → isAbs (effective cwd r) = true ∧ '\n' ∉ effective cwd r ∧ trimSpace (effective cwd r) = effective cwd r

instance (cwd : Option Text) (r : Text) : Decidable (Durable cwd r) :=
  inferInstanceAs (Decidable (trimSpace r ≠ [] → _ ∧ _ ∧ _))

section Restart
variable {cwd later : Option Text}

theorem effective_fixed (rooted : isAbs (effective cwd r) = true) (trimmed : trimSpace (effective cwd r) = effective cwd r) :
    trimSpace (effective cwd r) ≠ [] ∧ effective later (effective cwd r) = effective cwd r := by
  have named : effective cwd r ≠ [] := by
    intro empty
    rw [empty] at rooted
    cases rooted
  -- What Abs returns has been cleaned, unless it left a relative path alone.
  have cleaned : clean (effective cwd r) = effective cwd r := by
    generalize same : effective cwd r = root at rooted ⊢
    rw [effective,absolute.eq_def] at same
    split at same
    · rw [← same] at rooted ⊢
      exact clean_again rooted
    · rename_i relative
      cases cwd with
      | none => rw [← same] at rooted; exact absurd rooted relative
      | some dir =>
        rw [← same] at rooted ⊢
        exact clean_again rooted
  refine ⟨by rw [trimmed]; exact named,?_⟩
  rw [effective,trimmed,cleaned,absolute.eq_def,if_pos rooted,cleaned]

theorem effective_base (line : '\n' ∉ r) :
    isAbs (effective (some ['/']) r) = true ∧ '\n' ∉ effective (some ['/']) r := by
  have trimmed : '\n' ∉ trimSpace r := fun member => line ((trimSpace_part r).subset member)
  have cleaned : '\n' ∉ clean (trimSpace r) := by
    intro member
    rcases clean_mem member with slash | dot | inner
    · cases slash
    · cases dot
    · exact trimmed inner
  have again : ∀ text, '\n' ∉ text → '\n' ∉ clean text := by
    intro text plain member
    rcases clean_mem member with slash | dot | inner
    · cases slash
    · cases dot
    · exact plain inner
  rw [effective,absolute.eq_def]
  split
  · rename_i rooted
    exact ⟨clean_isAbs rooted,again _ cleaned⟩
  · exact ⟨clean_isAbs rfl,again _ (by simpa using cleaned)⟩

theorem effective_length (rooted : isAbs (trimSpace r) = true) : (effective later r).length ≤ (trimSpace r).length := by
  have abs := clean_isAbs rooted
  rw [effective,absolute.eq_def,if_pos abs,clean_clean rooted]
  exact clean_length rooted

theorem trimSpace_isAbs (rooted : isAbs r = true) : isAbs (trimSpace r) = true := by
  cases r with
  | nil => cases rooted
  | cons c rest =>
    obtain rfl : c = '/' := by simpa [isAbs] using rooted
    have started : ('/'::rest).dropWhile isSpace = '/'::rest := List.dropWhile_cons_of_neg (by decide)
    rw [trimSpace,started]
    cases short : ('/'::rest).rdropWhile isSpace with
    | nil =>
      have blank := List.rdropWhile_eq_nil_iff.mp short '/' List.mem_cons_self
      exact absurd blank (by decide)
    | cons d more =>
      obtain ⟨tail,whole⟩ := List.rdropWhile_prefix isSpace ('/'::rest)
      rw [short] at whole
      cases whole
      rfl

theorem total_cons (text : Text) (rest : List Text) : total (text::rest) = text.length + total rest := by simp [total]

theorem total_trimmed (same : total roots ≤ total (roots.map trimSpace)) : ∀ r ∈ roots, trimSpace r = r := by
  induction roots with
  | nil => simp
  | cons first rest ih =>
    have shorter : total (rest.map trimSpace) ≤ total rest := by
      clear ih same
      induction rest with
      | nil => exact Nat.le_refl _
      | cons second more ih =>
        exact Nat.add_le_add (trimSpace_part second).length_le ih
    have here := (trimSpace_part first).length_le
    rw [List.map_cons,total_cons,total_cons] at same
    intro r member
    rcases List.mem_cons.mp member with rfl | later
    · exact trimSpace_full (by omega)
    · exact ih (by omega) r later

theorem splitRoots_join (lines : ∀ r ∈ roots, '\n' ∉ r) : splitRoots later (joinRoots roots) = normalizeRoots later roots := by
  cases roots with
  | nil => rfl
  | cons first rest =>
    rw [splitRoots,joinRoots,List.splitOn_intercalate '\n' lines (by simp)]

theorem setRoots_stored (cwd : Option Text) (s : Store) (roots seed : List Text) :
    (loadRoots later (setRoots cwd s roots).config seed).1 = splitRoots later (joinRoots (normalizeRoots cwd roots)) := by
  simp [loadRoots,setRoots,hasConfig,getConfig,setConfig]

theorem durable_kept (durable : ∀ r ∈ roots, Durable cwd r) :
    splitRoots later (joinRoots (normalizeRoots cwd roots)) = normalizeRoots cwd roots := by
  have settled : ∀ root ∈ normalizeRoots cwd roots, '\n' ∉ root ∧ trimSpace root ≠ [] ∧ effective later root = root := by
    intro root member
    obtain ⟨r,within,named,rfl⟩ := normalizeRoots_mem.mp member
    obtain ⟨rooted,line,trimmed⟩ := durable r within named
    exact ⟨line,effective_fixed rooted trimmed⟩
  rw [splitRoots_join (fun root member => (settled root member).1)]
  exact normalizeOnto_same (fun root member => (settled root member).2) (normalizeOnto_nodup List.nodup_nil)

theorem kept_durable
    (kept : splitRoots (some ['/']) (joinRoots (normalizeRoots cwd roots)) = normalizeRoots cwd roots) : ∀ r ∈ roots, Durable cwd r := by
  have pieces : ∀ root ∈ normalizeRoots cwd roots, isAbs root = true ∧ '\n' ∉ root := by
    intro root member
    rw [← kept] at member
    obtain ⟨piece,within,_,rfl⟩ := normalizeRoots_mem.mp member
    exact effective_base (split_plain within)
  have trimmed : ∀ root ∈ normalizeRoots cwd roots, trimSpace root = root := by
    rw [splitRoots_join (fun root member => (pieces root member).2)] at kept
    apply total_trimmed
    have bound : total (normalizeRoots (some ['/']) (normalizeRoots cwd roots)) ≤ total [] + total ((normalizeRoots cwd roots).map trimSpace) :=
      normalizeOnto_total (fun root member => effective_length (trimSpace_isAbs (pieces root member).1))
    rw [kept] at bound
    simpa [total] using bound
  intro r member named
  have stored : effective cwd r ∈ normalizeRoots cwd roots := normalizeRoots_mem.mpr ⟨r,member,named,rfl⟩
  exact ⟨(pieces _ stored).1,(pieces _ stored).2,trimmed _ stored⟩

theorem roots_survive_restart (cwd : Option Text) (s : Store) (roots : List Text) :
    (∀ later seed, (loadRoots later (setRoots cwd s roots).config seed).1 = (setRoots cwd s roots).roots) ↔ ∀ r ∈ roots, Durable cwd r := by
  constructor
  · intro kept
    apply kept_durable
    rw [← setRoots_stored cwd s roots []]
    exact kept (some ['/']) []
  · intro durable later seed
    rw [setRoots_stored]
    exact durable_kept durable

def fresh : Store := ⟨[],false,[],[],0,0,false,[]⟩

-- The blank folder below /data is the jail until the restart, and all of /data after it.
theorem trailing_blank_widens :
    (setRoots (some ['/']) fresh ["/data/ /".toList]).roots = ["/data/ ".toList] ∧
      (loadRoots (some ['/']) (setRoots (some ['/']) fresh ["/data/ /".toList]).config []).1 = ["/data".toList] ∧
      (loadRoots (some ['/']) (setRoots (some ['/']) fresh ["/a\n/b".toList]).config []).1 = ["/a".toList,"/b".toList] := by
  refine ⟨?_,?_,?_⟩ <;> decide +kernel

theorem lookup_other (other : key ≠ stored) : (setConfig config stored value).lookup key = config.lookup key := by
  have differs : (key == stored) = false := by simpa using other
  simp only [setConfig,List.lookup_cons,differs]
  induction config with
  | nil => rfl
  | cons row rest ih =>
    obtain ⟨name,stands⟩ := row
    rw [List.filter_cons]
    by_cases same : name = stored
    · rw [if_neg (by simp [same]),ih]
      simp only [List.lookup_cons,same,differs]
    · rw [if_pos (by simpa using same)]
      simp only [List.lookup_cons,ih]

theorem load_roots (loaded : load later config seedReadOnly seedRoots seedName = .ok restarted) :
    restarted.roots = (loadRoots later config seedRoots).1 := by
  have seeded : (loadSeeded config keyReadOnly (boolToStr seedReadOnly)).2.lookup keyRoots = config.lookup keyRoots := by
    rw [loadSeeded]
    split
    · exact lookup_other (by decide)
    · rfl
  have same : (loadRoots later (loadSeeded config keyReadOnly (boolToStr seedReadOnly)).2 seedRoots).1 = (loadRoots later config seedRoots).1 := by
    have present : hasConfig (loadSeeded config keyReadOnly (boolToStr seedReadOnly)).2 keyRoots = hasConfig config keyRoots := by
      rw [hasConfig,seeded,hasConfig]
    have value : getConfig (loadSeeded config keyReadOnly (boolToStr seedReadOnly)).2 keyRoots = getConfig config keyRoots := by
      rw [getConfig,seeded,getConfig]
    rw [loadRoots,loadRoots,present,value]
    by_cases stored : hasConfig config keyRoots = true
    · rw [if_pos stored,if_pos stored]
    · rw [if_neg stored,if_neg stored]
  rw [← same]
  simp only [load,bind,Except.bind,pure,Except.pure] at loaded
  split at loaded
  · cases loaded
  · split at loaded
    · cases loaded
    · cases loaded
      rfl

end Restart

end RemoteFileExplorer.RootSettings

import RemoteFileExplorer.Discovery
import RemoteFileExplorer.Versions

namespace RemoteFileExplorer.Updates
open PathTexts Versions DesktopDownloads Discovery

def tagPrefix : Text := "desktop-v".toList
def maxNotes : Nat := 2000
def pageSize : Nat := 50
def maxPages : Nat := 4

structure ApiAsset where
  name : Text
  size : Nat
  deriving DecidableEq

structure ApiRelease where
  tagName : Text
  body : Text
  draft : Bool
  prerelease : Bool
  htmlUrl : Text
  assets : List ApiAsset
  deriving DecidableEq

structure Package where
  name : Text
  size : Nat
  deriving DecidableEq

structure UpdateView where
  current : Text
  latest : Text
  available : Bool
  prerelease : Bool
  notes : List Text
  page : Text
  package : Option Package
  deriving DecidableEq

-- `str::lines`: a carriage return goes with the line feed after it.
def lines (text : Text) : List Text :=
  let parts := text.splitOn '\n'
  parts.dropLast.map (fun l => if l.getLast? = some '\r' then l.dropLast else l) ++ parts.getLast?.toList.filter (· ≠ [])

def isDirection (c : Char) : Bool :=
  (0x200b ≤ c.toNat && c.toNat ≤ 0x200f) || (0x202a ≤ c.toNat && c.toNat ≤ 0x202e) || (0x2060 ≤ c.toNat && c.toNat ≤ 0x2064) ||
    (0x2066 ≤ c.toNat && c.toNat ≤ 0x2069) || c.toNat == 0xfeff

def cleanText (text : Text) (max : Nat) : Text :=
  let kept := trimSpace ((text.filter fun c => !isControl c && !isDirection c).map fun c => if c = '<' then '\u2039' else if c = '>' then '\u203a' else c)
  if kept.length ≤ max then kept else (kept.take (max - 1)).rdropWhile isSpace ++ ['\u2026']

def notesOf (body : Text) : List Text :=
  (((lines (body.take (maxNotes * 4))).map fun l => cleanText (trimSpace ((trimSpace l).dropWhile (· ∈ ['-','*','#',' ']))) 160).filter (· ≠ [])).take 8

def packageFor (names : List Text) (appimage : Bool) : Option Text :=
  let ending := if appimage then ".AppImage".toList else ".deb".toList
  names.find? fun n => ending.isSuffixOf n && !n.contains '/' && !n.contains '\\'

-- `answer` is what the project's list says to one page, or why it could not be read.
def readPages (answer : Nat → Except Text (List ApiRelease)) (wanted : ApiRelease → Bool) : Nat → Nat → List ApiRelease → Except Text (List ApiRelease)
  | 0,_,all => .ok all
  | left + 1,page,all => (answer page).bind fun list =>
    let full := pageSize ≤ list.length
    let found := list.any wanted
    if found || !full then .ok (all ++ list) else readPages answer wanted left (page + 1) (all ++ list)

def releases (answer : Nat → Except Text (List ApiRelease)) (wanted : ApiRelease → Bool) : Except Text (List ApiRelease) := readPages answer wanted maxPages 1 []

def ofDesktop (r : ApiRelease) : Bool := !r.draft && tagPrefix.isPrefixOf r.tagName

def versionOf (r : ApiRelease) : Option Version := (stripPrefix tagPrefix r.tagName).bind Version.parse

def better (beta : Bool) (best : Option (Version × ApiRelease)) (r : ApiRelease) : Option (Version × ApiRelease) :=
  match versionOf r with
  | none => best
  | some v =>
    if r.draft || ((r.prerelease || v.isPre) && !beta) then best else
    if best.elim true (fun b => v.cmp b.1 == .gt) then some (v,r) else best

def noRelease (current : Text) : UpdateView := ⟨current,current,false,false,[],[],none⟩

def viewOf (current : Text) (me : Version) (appimage : Bool) (v : Version) (r : ApiRelease) : UpdateView :=
  let available := v.cmp me == .gt
  { current := current
    latest := r.tagName.drop tagPrefix.length
    available := available
    prerelease := v.isPre || r.prerelease
    notes := if available then notesOf r.body else []
    page := if "https://github.com/".toList.isPrefixOf r.htmlUrl then r.htmlUrl else []
    package := (packageFor (r.assets.map ApiAsset.name) appimage).bind fun n => (r.assets.find? fun a => a.name == n).map fun a => ⟨a.name,a.size⟩ }

def checkAt (answer : Nat → Except Text (List ApiRelease)) (current : Text) (beta appimage : Bool) : Except Text UpdateView :=
  match Version.parse current with
  | none => .error "this app's own version is not readable".toList
  | some me => (releases answer ofDesktop).bind fun list =>
    .ok ((list.foldl (better beta) none).elim (noRelease current) fun (v,r) => viewOf current me appimage v r)

-- The list in pages, each but the last of them full.
def listed (all : List ApiRelease) (page : Nat) : Except Text (List ApiRelease) := .ok ((all.drop (pageSize * (page - 1))).take pageSize)

def Allowed (beta : Bool) (r : ApiRelease) (v : Version) : Prop :=
  versionOf r = some v ∧ r.draft = false ∧ (beta = true ∨ r.prerelease = false ∧ v.isPre = false)

def Holds (beta : Bool) (list : List ApiRelease) : Prop := ∃ r ∈ list, ∃ v, Allowed beta r v

def Greatest (beta : Bool) (list : List ApiRelease) (v : Version) : Prop := ∀ r ∈ list, ∀ w, Allowed beta r w → (w.cmp v).isLE = true

def Finds (all : List ApiRelease) (current : Text) (me : Version) (beta appimage : Bool) : Prop :=
  Holds beta (all.take (pageSize * maxPages)) → ∃ read r v view, releases (listed all) ofDesktop = .ok read ∧ r ∈ read ∧ Allowed beta r v ∧ Greatest beta read v ∧
    checkAt (listed all) current beta appimage = .ok view ∧ view.latest = r.tagName.drop tagPrefix.length ∧ (view.available = true ↔ v.cmp me = .gt)

-- The first page with a desktop release holds one that the channel allows.
def FirstHolds (beta : Bool) : Nat → List ApiRelease → Prop
  | 0,_ => False
  | left + 1,rest => Holds beta (rest.take pageSize) ∨ (rest.take pageSize).any ofDesktop = false ∧ FirstHolds beta left (rest.drop pageSize)

section Choice
variable {beta : Bool} {list : List ApiRelease} {r : ApiRelease} {v : Version} {best : Option (Version × ApiRelease)}

theorem allowed_desktop (allowed : Allowed beta r v) : ofDesktop r = true := by
  obtain ⟨versioned,published,_⟩ := allowed
  obtain ⟨rest,stripped,_⟩ := Option.bind_eq_some_iff.mp versioned
  unfold stripPrefix at stripped
  split at stripped
  · rename_i front
    simp [ofDesktop,published,front]
  · cases stripped

theorem better_allowed (allowed : Allowed beta r v) : better beta best r = if best.elim true (fun b => v.cmp b.1 == .gt) then some (v,r) else best := by
  obtain ⟨versioned,published,channel⟩ := allowed
  have passes : ¬ (r.draft || ((r.prerelease || v.isPre) && !beta)) = true := by
    rcases channel with on | ⟨stable,final⟩
    · simp [published,on]
    · simp [published,stable,final]
  unfold better
  rw [versioned]
  exact if_neg passes

theorem better_other (other : ∀ v, ¬ Allowed beta r v) : better beta best r = best := by
  unfold better
  cases versioned : versionOf r with
  | none => rfl
  | some v =>
    refine if_pos ?_
    by_contra passes
    refine other v ⟨versioned,?_⟩
    revert passes
    cases r.draft <;> cases r.prerelease <;> cases v.isPre <;> cases beta <;> simp

def Chosen (beta : Bool) (seen : List ApiRelease) : Option (Version × ApiRelease) → Prop
  | none => ¬ Holds beta seen
  | some (v,r) => r ∈ seen ∧ Allowed beta r v ∧ Greatest beta seen v

theorem holds_snoc : Holds beta (list ++ [r]) ↔ Holds beta list ∨ ∃ v, Allowed beta r v := by
  unfold Holds
  simp only [List.mem_append,List.mem_singleton,or_and_right,exists_or,exists_eq_left]

theorem greatest_snoc : Greatest beta (list ++ [r]) v ↔ Greatest beta list v ∧ ∀ w, Allowed beta r w → (w.cmp v).isLE = true := by
  unfold Greatest
  simp only [List.forall_mem_append,List.forall_mem_singleton]

theorem allowed_single (one : Allowed beta r v) (two : Allowed beta r w) : v = w := Option.some.inj (one.1.symm.trans two.1)

theorem cmp_self (v : Version) : v.cmp v = .eq := (cmp_same v v).mpr ⟨rfl,List.forall₂_same.mpr fun a _ => idOrder_self a⟩

theorem chosen_better (chosen : Chosen beta list best) (r : ApiRelease) : Chosen beta (list ++ [r]) (better beta best r) := by
  by_cases allowed : ∃ v, Allowed beta r v
  · obtain ⟨v,allowed⟩ := allowed
    have own : ∀ w, Allowed beta r w → (w.cmp v).isLE = true := by
      intro w other
      rw [allowed_single other allowed,cmp_self]
      rfl
    rw [better_allowed allowed]
    cases best with
    | none =>
      refine ⟨List.mem_append_right _ (List.mem_cons_self ..),allowed,greatest_snoc.mpr ⟨?_,own⟩⟩
      intro other member w permitted
      exact absurd ⟨other,member,w,permitted⟩ chosen
    | some kept =>
      obtain ⟨u,first⟩ := kept
      obtain ⟨member,permitted,greatest⟩ := chosen
      by_cases more : v.cmp u = .gt
      · rw [Option.elim_some,more,if_pos (beq_self_eq_true _)]
        refine ⟨List.mem_append_right _ (List.mem_cons_self ..),allowed,greatest_snoc.mpr ⟨?_,own⟩⟩
        intro other among w one
        refine cmp_trans (greatest other among w one) ?_
        rw [cmp_swap v u,more]
        rfl
      · rw [Option.elim_some,if_neg (by simpa using more)]
        refine ⟨List.mem_append_left _ member,permitted,greatest_snoc.mpr ⟨greatest,?_⟩⟩
        intro w one
        rw [allowed_single one allowed]
        cases order : v.cmp u with
        | lt => rfl
        | eq => rfl
        | gt => exact absurd order more
  · have other : ∀ v, ¬ Allowed beta r v := fun v one => allowed ⟨v,one⟩
    rw [better_other other]
    cases best with
    | none => exact fun holds => (holds_snoc.mp holds).elim chosen allowed
    | some kept => exact ⟨List.mem_append_left _ chosen.1,chosen.2.1,greatest_snoc.mpr ⟨chosen.2.2,fun w one => absurd one (other w)⟩⟩

theorem chosen_all (seen : List ApiRelease) (chosen : Chosen beta seen best) (list : List ApiRelease) :
    Chosen beta (seen ++ list) (list.foldl (better beta) best) := by
  induction list generalizing seen best with
  | nil => rwa [List.append_nil]
  | cons r rest ih =>
    have later := ih (seen ++ [r]) (chosen_better chosen r)
    rwa [List.append_assoc] at later

theorem chosen_list (beta : Bool) (list : List ApiRelease) : Chosen beta list (list.foldl (better beta) none) := by
  have start : Chosen beta [] none := by
    rintro ⟨r,member,_⟩
    cases member
  exact chosen_all [] start list

end Choice

section Pages
variable {beta : Bool} {wanted : ApiRelease → Bool} {rest : List ApiRelease}

def readRest (wanted : ApiRelease → Bool) : Nat → List ApiRelease → List ApiRelease
  | 0,_ => []
  | left + 1,rest =>
    let list := rest.take pageSize
    list ++ if list.any wanted || !decide (pageSize ≤ list.length) then [] else readRest wanted left (rest.drop pageSize)

theorem readPages_listed (all : List ApiRelease) (wanted : ApiRelease → Bool) (left page : Nat) (before : List ApiRelease) :
    readPages (listed all) wanted left (page + 1) before = .ok (before ++ readRest wanted left (all.drop (pageSize * page))) := by
  induction left generalizing page before with
  | zero =>
    rw [readPages,readRest,List.append_nil]
  | succ left ih =>
    have answer : listed all (page + 1) = .ok ((all.drop (pageSize * page)).take pageSize) := rfl
    rw [readPages,answer,readRest]
    simp only [Except.bind]
    split
    · rw [List.append_nil]
    · rw [ih,← List.append_assoc,List.drop_drop,Nat.mul_succ]

theorem releases_listed (all : List ApiRelease) (wanted : ApiRelease → Bool) : releases (listed all) wanted = .ok (readRest wanted maxPages all) :=
  readPages_listed all wanted maxPages 0 []

theorem holds_append : Holds beta (first ++ second) ↔ Holds beta first ∨ Holds beta second := by
  unfold Holds
  simp only [List.mem_append,or_and_right,exists_or]

theorem holds_wanted (none : list.any ofDesktop = false) : ¬ Holds beta list := by
  rintro ⟨r,member,v,allowed⟩
  rw [List.any_eq_false] at none
  exact none r member (allowed_desktop allowed)

theorem holds_nil : ¬ Holds beta [] := by
  rintro ⟨r,member,_⟩
  cases member

theorem firstHolds_nil (left : Nat) : ¬ FirstHolds beta left [] := by
  induction left with
  | zero => exact id
  | succ left ih =>
    rintro (holds | ⟨_,later⟩)
    · exact holds_nil holds
    · exact ih later

theorem holds_read (left : Nat) (rest : List ApiRelease) : Holds beta (readRest ofDesktop left rest) ↔ FirstHolds beta left rest := by
  induction left generalizing rest with
  | zero => exact iff_of_false (fun ⟨_,member,_⟩ => List.not_mem_nil member) id
  | succ left ih =>
    rw [readRest,FirstHolds,holds_append]
    cases found : (rest.take pageSize).any ofDesktop with
    | true => simp [Holds]
    | false =>
      have absent := @holds_wanted beta _ found
      rw [or_iff_right absent,or_iff_right absent]
      by_cases full : pageSize ≤ (rest.take pageSize).length
      · rw [decide_eq_true full]
        exact (ih _).trans (and_iff_right rfl).symm
      · have last : rest.drop pageSize = [] := by
          rw [List.length_take] at full
          exact List.drop_eq_nil_of_le (by omega)
        rw [decide_eq_false full,last]
        exact iff_of_false holds_nil fun ⟨_,later⟩ => firstHolds_nil left later

end Pages

-- Of a listed project the check finds the newest release it could have found
-- exactly when the first page that stops the reading holds one of the channel.
theorem newest_found_iff (all : List ApiRelease) (current : Text) (beta appimage : Bool) {me : Version} (readable : Version.parse current = some me) :
    Finds all current me beta appimage ↔ (Holds beta (all.take (pageSize * maxPages)) → FirstHolds beta maxPages all) := by
  refine imp_congr_right fun _ => ?_
  rw [← holds_read,releases_listed]
  constructor
  · rintro ⟨read,r,v,view,same,member,allowed,_⟩
    cases same
    exact ⟨r,member,v,allowed⟩
  · intro holds
    have chosen := chosen_list beta (readRest ofDesktop maxPages all)
    cases best : (readRest ofDesktop maxPages all).foldl (better beta) none with
    | none =>
      rw [best] at chosen
      exact absurd holds chosen
    | some found =>
      obtain ⟨v,r⟩ := found
      rw [best] at chosen
      refine ⟨_,r,v,viewOf current me appimage v r,rfl,chosen.1,chosen.2.1,chosen.2.2,?_,rfl,beq_iff_eq⟩
      unfold checkAt
      rw [readable,releases_listed]
      simp only [Except.bind,best,Option.elim_some]

def tagged (tag : String) (prerelease : Bool) : ApiRelease := ⟨tag.toList,[],false,prerelease,[],[]⟩

theorem stable_allowed : Allowed false (tagged "desktop-v1.1.0" false) ⟨(1,1,0),[]⟩ := by
  refine ⟨?_,rfl,.inr ⟨rfl,rfl⟩⟩
  decide +kernel

theorem stable_found : Finds [tagged "desktop-v1.1.0" false] "1.0.0".toList ⟨(1,0,0),[]⟩ false false := by
  refine (newest_found_iff _ _ _ _ ?_).mpr fun _ => ?_
  · decide +kernel
  · exact .inl ⟨_,List.mem_cons_self ..,_,stable_allowed⟩

def betaFirst : List ApiRelease := tagged "desktop-v2.0.0-beta.1" true::List.replicate 49 (tagged "agent-v1.0.0" false)

theorem beta_hides_stable : ¬ Finds (betaFirst ++ [tagged "desktop-v1.1.0" false]) "1.0.0".toList ⟨(1,0,0),[]⟩ false false := by
  intro finds
  have last : tagged "desktop-v1.1.0" false ∈ (betaFirst ++ [tagged "desktop-v1.1.0" false]).take (pageSize * maxPages) := by
    rw [List.take_of_length_le (by decide)]
    exact List.mem_append_right _ (List.mem_cons_self ..)
  obtain ⟨read,r,v,_,same,member,allowed,_⟩ := finds ⟨_,last,_,stable_allowed⟩
  rw [releases_listed] at same
  cases same
  have page : (betaFirst ++ [tagged "desktop-v1.1.0" false]).take pageSize = betaFirst := rfl
  rcases (holds_read maxPages _).mp ⟨r,member,v,allowed⟩ with ⟨other,among,w,permitted⟩ | ⟨unread,_⟩
  · rw [page] at among
    rcases List.mem_cons.mp among with rfl | agent
    · rcases permitted.2.2 with on | ⟨stable,_⟩
      · cases on
      · cases stable
    · rw [List.eq_of_mem_replicate agent] at permitted
      have desktop := allowed_desktop permitted
      revert desktop
      decide
  · rw [page] at unread
    revert unread
    decide

end RemoteFileExplorer.Updates

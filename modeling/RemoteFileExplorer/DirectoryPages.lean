import Mathlib.Data.List.Lex
import RemoteFileExplorer.EchoedPages
import RemoteFileExplorer.TextDecodes

namespace RemoteFileExplorer.DirectoryPages
open Runs CodeUnits TextDecodes EchoedPages

instance byteOrder : LinearOrder UInt8 where
  le_refl := UInt8.le_refl
  le_trans := fun _ _ _ => UInt8.le_trans
  le_antisymm := fun _ _ => UInt8.le_antisymm
  le_total := UInt8.le_total
  lt_iff_le_not_ge := fun _ _ => by rw [UInt8.not_le]; exact ⟨fun less => ⟨UInt8.le_of_lt less,less⟩,And.right⟩
  toDecidableLE := inferInstance
  toDecidableLT := inferInstance

-- The bytes of the rune that stands first; none when they are no valid encoding.
def runeSize : Bytes → Option Nat
  | [] => none
  | b::rest =>
    if b.toNat < 0x80 then some 1 else
    if 0xc2 ≤ b.toNat ∧ b.toNat ≤ 0xdf then
      match rest with
      | b1::_ => (cont b1).map fun _ => 2
      | _ => none
    else if 0xe0 ≤ b.toNat ∧ b.toNat ≤ 0xef then
      match rest with
      | b1::b2::_ => (cont b1).bind fun c1 => (cont b2).bind fun c2 => (triple b c1 c2).map fun _ => 3
      | _ => none
    else if 0xf0 ≤ b.toNat ∧ b.toNat ≤ 0xf4 then
      match rest with
      | b1::b2::b3::_ => (cont b1).bind fun c1 => (cont b2).bind fun c2 => (cont b3).bind fun c3 => (quadruple b c1 c2 c3).map fun _ => 4
      | _ => none
    else none

def replacement : Bytes := [0xef,0xbf,0xbd]

-- A string as the reader of the JSON text has it. `left` bytes of the rune that
-- is being copied are still to come.
def replaceFrom : Nat → Bytes → Bytes
  | _,[] => []
  | left + 1,b::rest => b::replaceFrom left rest
  | 0,b::rest =>
    match runeSize (b::rest) with
    | some size => b::replaceFrom (size - 1) rest
    | none => replacement ++ replaceFrom 0 rest

def wire (text : Bytes) : Bytes := replaceFrom 0 text

def Admitted (name : Bytes) : Prop := name ≠ [] ∧ 0x00 ∉ name ∧ 0x2f ∉ name ∧ name ≠ [0x2e] ∧ name ≠ [0x2e,0x2e]

-- `isDir` is what entryFromSecureInfo reports, for a link that of what it leads
-- to; `names` are the names a directory gives when it can be read.
structure Info where
  name : Bytes
  isDir : Bool
  isSymlink : Bool
  names : Option Nat

structure Directory where
  infos : List Info
  distinct : (infos.map Info.name).Nodup
  admitted : ∀ info ∈ infos, Admitted info.name

structure Entry where
  name : Bytes
  isDir : Bool
  isSymlink : Bool
  childCount : Option Nat
  deriving DecidableEq

structure Listing where
  entries : List Entry
  nextCursor : Option Bytes
  deriving DecidableEq

def maxCountedDirs : Nat := 60
def maxChildCount : Nat := 1000
def maxListLimit : Nat := 1000

def countChildren (info : Info) : Option Nat := info.names.map fun names => min names maxChildCount

def describe : Nat → List Info → List Entry
  | _,[] => []
  | counted,info::rest =>
    if info.isDir ∧ ¬info.isSymlink ∧ counted < maxCountedDirs then
      ⟨info.name,info.isDir,info.isSymlink,countChildren info⟩::describe (counted + 1) rest
    else ⟨info.name,info.isDir,info.isSymlink,none⟩::describe counted rest

def pageLimit (limit : Int) : Nat := if limit ≤ 0 then 200 else min limit.toNat maxListLimit

def listDir (directory : Directory) (cursor : Bytes) (limit : Int) : Listing :=
  let infos := Pages.listed Info.name directory.infos
  let filtered := infos.filter fun info => !(cursor ≠ [] && info.name ≤ cursor)
  let stop := min filtered.length (pageLimit limit)
  let entries := describe 0 (filtered.take stop)
  ⟨entries,if stop < filtered.length then entries.getLast?.map Entry.name else none⟩

-- The cursor of a chain's next request: none at first, then the cut as it came
-- through the response.
def sent : Place Bytes → Bytes
  | .cut last => wire last
  | .first | .finished => []

def step (s : Reading Bytes) (request : Directory × Int) : Option (Reading Bytes) :=
  match s.place with
  | .finished => none
  | _ =>
    let listing := listDir request.1 (sent s.place) request.2
    some ⟨s.shown ++ listing.entries.map Entry.name,listing.nextCursor.elim .finished .cut⟩

def names (directory : Directory) : List Bytes := directory.infos.map Info.name

section Listings
variable {directory : Directory} {cursor : Bytes} {limit : Int}

theorem pageLimit_positive (limit : Int) : 0 < pageLimit limit := by
  unfold pageLimit maxListLimit
  split <;> omega

def requested (request : Directory × Int) : Request Info.name :=
  ⟨request.1.infos,request.1.distinct,pageLimit request.2,pageLimit_positive request.2⟩

theorem describe_names (counted : Nat) (infos : List Info) : (describe counted infos).map Entry.name = infos.map Info.name := by
  induction infos generalizing counted with
  | nil => rfl
  | cons info rest ih =>
    unfold describe
    split <;> rw [List.map_cons,List.map_cons,ih]

theorem listDir_page (directory : Directory) (cursor : Bytes) (limit : Int) :
    let page := Pages.page Info.name (pageLimit limit) (if cursor = [] then none else some cursor) directory.infos
    (listDir directory cursor limit).entries.map Entry.name = page.items.map Info.name ∧ (listDir directory cursor limit).nextCursor = page.next := by
  have filtered : (Pages.listed Info.name directory.infos).filter (fun info => !(cursor ≠ [] && info.name ≤ cursor)) =
      Pages.after Info.name (if cursor = [] then none else some cursor) (Pages.listed Info.name directory.infos) := by
    apply List.filter_congr
    intro info _
    by_cases start : cursor = []
    · simp [start]
    · rcases lt_or_ge cursor info.name with past | reached
      · simp [start,past]
      · simp [start,reached]
  have stop : ∀ infos : List Info, infos.take (min infos.length (pageLimit limit)) = infos.take (pageLimit limit) := by
    intro infos
    rw [List.take_eq_take_iff]
    omega
  simp only [listDir,Pages.page,filtered,stop,describe_names,true_and]
  by_cases more : pageLimit limit < (Pages.after Info.name (if cursor = [] then none else some cursor) (Pages.listed Info.name directory.infos)).length
  · rw [if_pos (by omega),if_pos more,← List.getLast?_map,describe_names,List.getLast?_map]
  · rw [if_neg (by omega),if_neg more]

-- No name is empty, so the empty cursor leaves out as little as none.
theorem page_start (directory : Directory) (limit : Nat) :
    Pages.page Info.name limit (some []) directory.infos = Pages.page Info.name limit none directory.infos := by
  have whole : Pages.after Info.name (some []) (Pages.listed Info.name directory.infos) = Pages.listed Info.name directory.infos := by
    apply List.filter_eq_self.mpr
    intro info member
    have named := (directory.admitted info ((Pages.mem_listed Info.name).mp member)).1
    cases name : info.name with
    | nil => exact absurd name named
    | cons b rest => simp
  simp only [Pages.page,whole,Pages.after_none]

theorem page_given (directory : Directory) (limit : Nat) (cursor : Bytes) :
    Pages.page Info.name limit (if cursor = [] then none else some cursor) directory.infos = Pages.page Info.name limit (some cursor) directory.infos := by
  by_cases empty : cursor = []
  · rw [if_pos empty,empty,page_start]
  · rw [if_neg empty]

theorem step_requested (s : Reading Bytes) (request : Directory × Int) : step s request = EchoedPages.step Info.name wire s (requested request) := by
  have page : Pages.page Info.name (pageLimit request.2) (some (sent s.place)) request.1.infos = answer Info.name wire s (requested request) := by
    unfold answer
    cases s.place with
    | first | finished => exact page_start request.1 _
    | cut last => rfl
  obtain ⟨entries,next⟩ := listDir_page request.1 (sent s.place) request.2
  rw [page_given,page] at entries next
  unfold step EchoedPages.step
  rw [← entries,← next]
  cases s.place <;> rfl

theorem run_requested :
    run step s requests = run (EchoedPages.step Info.name wire) s (requests.map requested) := by
  rw [← run_map]
  congr 1
  funext s request
  exact step_requested s request

end Listings

def Throughout (requests : List (Directory × Int)) (name : Bytes) : Prop := ∀ request ∈ requests, name ∈ names request.1

-- Paging as it should be: byte order and so no name twice, what stays shown
-- once when the chain is over, and no more pages than names and one more.
structure Exact (requests : List (Directory × Int)) (s : Reading Bytes) : Prop where
  ordered : s.shown.Pairwise (· < ·)
  once : s.shown.Nodup
  complete : s.place = .finished → ∀ name, Throughout requests name → s.shown.count name = 1
  bounded : ∀ occurring : Finset Bytes, (∀ request ∈ requests, ∀ name ∈ names request.1, name ∈ occurring) → requests.length ≤ occurring.card + 1

-- What comes back is smaller than the cut: nothing the next directory holds is
-- between the two.
def Ahead (s : Reading Bytes) (request : Directory × Int) : Prop :=
  ∀ last, s.place = .cut last → ∀ name ∈ names request.1, wire last < name → last < name

-- What comes back is greater than the cut: nothing that stays is between them.
def Reached (stays : Bytes → Prop) (s : Reading Bytes) (_ : Directory × Int) : Prop :=
  ∀ last, s.place = .cut last → ∀ name, stays name → last < name → wire last < name

section Chains
variable {requests : List (Directory × Int)} {s : Reading Bytes}

theorem throughout_requested : EchoedPages.Throughout Info.name (requests.map requested) = Throughout requests := by
  funext name
  unfold EchoedPages.Throughout
  rw [List.forall_mem_map]
  rfl

theorem exact_requested : EchoedPages.Exact Info.name (requests.map requested) s ↔ Exact requests s := by
  have occurs : ∀ occurring : Finset Bytes, (∀ request ∈ requests.map requested, ∀ item ∈ request.items, item.name ∈ occurring) ↔
      ∀ request ∈ requests, ∀ name ∈ names request.1, name ∈ occurring := by
    intro occurring
    simp only [requested,names,List.forall_mem_map]
  constructor
  · rintro ⟨ordered,complete,bounded⟩
    have once : s.shown.Nodup := ordered.imp ne_of_lt
    rw [throughout_requested] at complete
    refine ⟨ordered,once,fun finished name stay => List.count_eq_one_of_mem once (complete finished name stay),?_⟩
    intro occurring inside
    have counted := bounded occurring ((occurs occurring).mpr inside)
    rwa [List.length_map] at counted
  · rintro ⟨ordered,_,complete,bounded⟩
    refine ⟨ordered,?_,?_⟩
    · rw [throughout_requested]
      intro finished name stay
      exact List.count_pos_iff.mp (by rw [complete finished name stay]; exact Nat.one_pos)
    · intro occurring inside
      rw [List.length_map]
      exact bounded occurring ((occurs occurring).mp inside)

theorem every_requested
    (same : ∀ s request, mine s request ↔ ok s (requested request)) :
    Every step mine s requests ↔ Every (EchoedPages.step Info.name wire) ok s (requests.map requested) := by
  rw [← every_map]
  have steps : step = fun s request => EchoedPages.step Info.name wire s (requested request) := funext fun s => funext fun request => step_requested s request
  have conditions : mine = fun s request => ok s (requested request) := funext fun s => funext fun request => propext (same s request)
  rw [steps,conditions]

theorem directory_paging_exact (ran : run step start requests = some s) : Exact requests s ↔
    Every step Ahead start requests ∧ (s.place = .finished → Every step (Reached (Throughout requests)) start requests) := by
  have ahead : Every step Ahead start requests ↔ Every (EchoedPages.step Info.name wire) (EchoedPages.Ahead Info.name wire) start (requests.map requested) := by
    apply every_requested
    intro s request
    simp only [Ahead,EchoedPages.Ahead,requested,names,List.forall_mem_map]
  have reached : Every step (Reached (Throughout requests)) start requests ↔
      Every (EchoedPages.step Info.name wire) (EchoedPages.Reached Info.name wire (EchoedPages.Throughout Info.name (requests.map requested))) start (requests.map requested) := by
    apply every_requested
    intro s request
    rw [throughout_requested]
    exact Iff.rfl
  rw [← exact_requested,ahead,reached]
  exact reading_exact (run_requested ▸ ran)

end Chains

def two : Directory where
  infos := [⟨[0xff],false,false,none⟩,⟨[0xff,0x01],false,false,none⟩]
  distinct := by decide
  admitted := by simp [Admitted]

-- The name FF comes back as EF BF BD, which is before it, so a page of one
-- entry shows it again and again.
theorem invalid_name_endless (s : Reading Bytes) (place : s.place = .first ∨ s.place = .cut [0xff]) (count : Nat) :
    ∃ last, run step s (List.replicate count (two,1)) = some last ∧ last.shown = s.shown ++ List.replicate count [0xff] ∧ last.place ≠ .finished := by
  induction count generalizing s with
  | zero =>
    refine ⟨s,rfl,(List.append_nil _).symm,?_⟩
    rcases place with first | cut
    · rw [first]; exact nofun
    · rw [cut]; exact nofun
  | succ count ih =>
    have page : listDir two (sent s.place) 1 = ⟨[⟨[0xff],false,false,none⟩],some [0xff]⟩ := by
      rcases place with first | cut
      · rw [first]
        decide
      · rw [cut]
        decide
    have stepped : step s (two,1) = some ⟨s.shown ++ [[0xff]],.cut [0xff]⟩ := by
      unfold step
      rcases place with first | cut
      · rw [first]; rfl
      · rw [cut]; rfl
    obtain ⟨last,ran,shown,going⟩ := ih ⟨s.shown ++ [[0xff]],.cut [0xff]⟩ (.inr rfl)
    refine ⟨last,?_,?_,going⟩
    · exact run_cons.mpr ⟨_,stepped,ran⟩
    · rw [shown,List.append_assoc,List.replicate_succ]
      rfl

theorem invalid_name_repeats : ¬ ∀ requests s, run step start requests = some s → Exact requests s := by
  intro always
  obtain ⟨s,ran,shown,_⟩ := invalid_name_endless start (.inl rfl) 2
  have once := (always _ s ran).once
  rw [shown] at once
  revert once
  decide

theorem directory_paging_exact_pages : ∃ s, run step start [(two,2)] = some s ∧ Exact [(two,2)] s := by
  have ran : ∃ s, run step start [(two,2)] = some s := ⟨_,rfl⟩
  obtain ⟨s,reached⟩ := ran
  refine ⟨s,reached,(directory_paging_exact reached).mpr ⟨⟨nofun,fun _ _ => trivial⟩,fun _ => ⟨nofun,fun _ _ => trivial⟩⟩⟩

end RemoteFileExplorer.DirectoryPages

import RemoteFileExplorer.CodeUnits
import RemoteFileExplorer.Relocations

namespace RemoteFileExplorer.HostMoves
open CodeUnits Relocations

-- A folder that the host made by itself is none that was there before.
inductive Item where
  | file (id : Nat)
  | folder (id : Nat)
  | made
  deriving DecidableEq,Repr

def Item.isFolder : Item → Bool
  | .file _ => false
  | _ => true

abbrev Disk := Tree Units Item

def mkdirAll (disk : Disk) (dir : List Units) : Option Disk :=
  if dir.inits.all (fun upper => (disk upper).all Item.isFolder) then
    some fun path => (disk path).or (if path <+: dir then some .made else none)
  else none

-- One source of a plain move. A request can also be refused for reasons of
-- its own: no access, a read-only host.
def moveOne (depth : Nat) (disk : Disk) (destDir src : List Units) (refused : Bool) : Disk × Bool :=
  match src.getLast? with
  | none => (disk,false)
  | some base =>
    let dst := destDir ++ [base]
    if refused ∨ src.length ≤ depth then (disk,false)
    else if src = dst then (disk,true)
    else if src <+: dst then (disk,false)
    else if (disk dst).isSome then (disk,false)
    else match mkdirAll disk destDir with
      | none => (disk,false)
      | some made => if (made src).isSome then (relocate made src dst,true) else (made,false)

def place (dest src : List Units) : List Units := dest ++ [src.getLastD []]

def Closed (disk : Disk) : Prop := ∀ path rest,rest ≠ [] → disk (path ++ rest) ≠ none → ∃ item,disk path = some item ∧ item.isFolder = true

theorem Closed.held (closed : Closed disk) (below : upper <+: path) (held : disk path ≠ none) : disk upper ≠ none := by
  obtain ⟨rest,rfl⟩ := below
  by_cases same : rest = []
  · simpa [same] using held
  · obtain ⟨item,found,_⟩ := closed upper rest same held
    simp [found]

def Folders (disk : Disk) (dir : List Units) : Prop := ∀ upper,upper <+: dir → ∃ item,disk upper = some item ∧ item.isFolder = true

theorem mkdirAll_done (folders : Folders disk dir) : mkdirAll disk dir = some disk := by
  have passes : dir.inits.all (fun upper => (disk upper).all Item.isFolder) = true := by
    rw [List.all_eq_true]
    intro upper member
    obtain ⟨item,found,folder⟩ := folders upper ((List.mem_inits upper dir).mp member)
    simp [found,folder]
  rw [mkdirAll,if_pos passes]
  congr 1
  funext path
  by_cases below : path <+: dir
  · obtain ⟨item,found,_⟩ := folders path below
    simp [found]
  · simp [below]

theorem mkdirAll_possible (clear : ∀ upper,upper <+: dir → ∀ item,disk upper = some item → item.isFolder = true) :
    ∃ next,mkdirAll disk dir = some next := by
  have passes : dir.inits.all (fun upper => (disk upper).all Item.isFolder) = true := by
    rw [List.all_eq_true]
    intro upper member
    cases found : disk upper with
    | none => rfl
    | some item => exact clear upper ((List.mem_inits upper dir).mp member) item found
  exact ⟨_,if_pos passes⟩

theorem mkdirAll_parts (made : mkdirAll disk dir = some next) :
    Folders next dir ∧ (∀ path,¬path <+: dir → next path = disk path) ∧ (∀ path,disk path ≠ none → next path = disk path) ∧
      ∀ path,path <+: dir → disk path = none → next path = some .made := by
  unfold mkdirAll at made
  split at made
  next passes =>
    cases made
    refine ⟨?_,?_,?_,?_⟩
    · intro upper below
      have folder := List.all_eq_true.mp passes upper ((List.mem_inits upper dir).mpr below)
      cases found : disk upper with
      | none => exact ⟨.made,by simp [found,below],rfl⟩
      | some item =>
          rw [found] at folder
          exact ⟨item,by simp [found],folder⟩
    · intro path outside
      simp [outside]
    · intro path held
      obtain ⟨item,found⟩ := Option.ne_none_iff_exists'.mp held
      simp [found]
    · intro path below absent
      simp [below,absent]
  next => cases made

theorem mkdirAll_closed (closed : Closed disk) (made : mkdirAll disk dir = some next) : Closed next := by
  obtain ⟨folders,outside,kept,_⟩ := mkdirAll_parts made
  intro path rest solid held
  by_cases below : path ++ rest <+: dir
  · exact folders path ((List.prefix_append path rest).trans below)
  · rw [outside _ below] at held
    obtain ⟨item,found,folder⟩ := closed path rest solid held
    exact ⟨item,by rw [kept path (by simp [found]),found],folder⟩

structure Moved (base : Disk) (dest : List Units) (moved : List (List Units)) : Prop where
  closed : Closed base
  held : ∀ src ∈ moved,base src ≠ none
  free : ∀ src ∈ moved,base (place dest src) = none
  outside : ∀ src ∈ moved,¬src <+: dest
  order : moved.Pairwise fun later earlier => ¬earlier <+: later
  places : moved.Pairwise fun later earlier => place dest later ≠ place dest earlier

theorem place_prefix (below : path <+: place dest src) : path <+: dest ∨ path = place dest src := by
  rcases List.prefix_concat_iff.mp below with same | upper
  · exact .inr same
  · exact .inl upper

theorem place_again (same : path = place dest src) : place dest path = place dest src := by
  rw [same]
  simp [place]

theorem places_apart (other : place dest one ≠ place dest two) : Apart (place dest one) (place dest two) := by
  constructor
  · intro below
    exact other (below.eq_of_length (by simp [place]))
  · intro below
    exact other (below.eq_of_length (by simp [place])).symm

section
variable {base : Disk} {dest : List Units} {moved : List (List Units)} (facts : Moved base dest moved)
include facts

theorem Moved.sublist (fewer : List.Sublist rest moved) : Moved base dest rest where
  closed := facts.closed
  held src member := facts.held src (fewer.subset member)
  free src member := facts.free src (fewer.subset member)
  outside src member := facts.outside src (fewer.subset member)
  order := facts.order.sublist fewer
  places := facts.places.sublist fewer

theorem Moved.away (member : src ∈ moved) (held : base path ≠ none) : ¬place dest src <+: path := by
  intro below
  exact facts.closed.held below held (facts.free src member)

theorem Moved.apart (one : src ∈ moved) (two : other ∈ moved) : Apart (place dest src) other := by
  refine ⟨facts.away one (facts.held other two),?_⟩
  intro below
  rcases place_prefix below with upper | same
  · exact facts.outside other two upper
  · exact facts.held other two (same ▸ facts.free src one)

theorem Moved.empty (member : src ∈ moved) (rest : List Units) : base (place dest src ++ rest) = none := by
  by_contra held
  exact facts.away member held (List.prefix_append _ rest)

theorem Moved.deep (member : src ∈ moved) : src ≠ [] := by
  rintro rfl
  exact facts.outside [] member List.nil_prefix

theorem Moved.front (parted : moved = later ++ src::earlier) (top : ∀ other ∈ moved,other <+: src → other = src) :
    relocated (place dest) base moved = relocate (relocated (place dest) base (later ++ earlier)) src (place dest src) := by
  subst parted
  have order := List.pairwise_append.mp facts.order
  have places := List.pairwise_append.mp facts.places
  have here : src ∈ later ++ src::earlier := by simp
  apply relocated_pull
  intro other member
  have there : other ∈ later ++ src::earlier := List.mem_append_left _ member
  have below : ¬src <+: other := order.2.2 other member src List.mem_cons_self
  have above : ¬other <+: src := by
    intro upper
    cases top other there upper
    exact below upper
  exact ⟨⟨below,above⟩,facts.apart here there,(facts.apart there here).symm,places_apart (places.2.2 other member src List.mem_cons_self).symm⟩

theorem Moved.intact (held : base path ≠ none) (outside : ∀ src ∈ moved,¬src <+: path) : relocated (place dest) base moved path = base path :=
  relocated_other fun src member => ⟨facts.away member held,outside src member⟩

theorem Moved.gone (member : src ∈ moved) (below : src <+: path) (held : base path ≠ none) : relocated (place dest) base moved path = none :=
  relocated_gone member below fun _ inside => facts.away inside held

end

def back (depth : Nat) (dest : List Units) (disk : Disk) (src : List Units) : Disk := (moveOne depth disk src.dropLast (place dest src) false).1

theorem back_eq (deep : depth ≤ dest.length) (solid : src ≠ []) (disk : Disk) :
    back depth dest disk src =
      if place dest src = src ∨ place dest src <+: src ∨ disk src ≠ none then disk
      else match mkdirAll disk src.dropLast with
        | none => disk
        | some made => if (made (place dest src)).isSome then relocate made (place dest src) src else made := by
  have last : (place dest src).getLast? = some (src.getLastD []) := by simp [place]
  have whole : src.dropLast ++ [src.getLastD []] = src := by
    rw [List.getLastD_eq_getLast?,List.getLast?_eq_some_getLast solid]
    exact List.dropLast_append_getLast solid
  have long : ¬(place dest src).length ≤ depth := by
    simp [place]
    omega
  simp only [back,moveOne,last,whole,long,Bool.false_eq_true,or_false,if_false]
  by_cases same : place dest src = src
  · rw [if_pos same,if_pos (.inl same)]
  · rw [if_neg same]
    by_cases below : place dest src <+: src
    · rw [if_pos below,if_pos (.inr (.inl below))]
    · cases found : disk src with
      | some item => simp
      | none =>
          simp only [same,below,ne_eq,not_true_eq_false,or_false,if_false,Option.isSome_none,Bool.false_eq_true]
          cases mkdirAll disk src.dropLast with
          | none => rfl
          | some made => exact apply_ite Prod.fst _ _ _

theorem dropLast_proper (upper : path <+: src.dropLast) (solid : src ≠ []) : path <+: src ∧ path ≠ src := by
  refine ⟨upper.trans (List.dropLast_prefix src),?_⟩
  rintro rfl
  have length := upper.length_le
  have long := List.length_pos_iff.mpr solid
  rw [List.length_dropLast] at length
  omega

theorem proper_dropLast (below : path <+: src) (other : path ≠ src) : path <+: src.dropLast := by
  rcases List.eq_nil_or_concat' src with rfl | ⟨front,last,rfl⟩
  · exact absurd (List.prefix_nil.mp below) other
  · rw [List.dropLast_concat]
    exact (List.prefix_concat_iff.mp below).resolve_left other

section
variable {base : Disk} {dest : List Units} {moved : List (List Units)} (facts : Moved base dest moved) (deep : depth ≤ dest.length)
include facts

theorem Moved.ancestor (held : base src ≠ none) (solid : src ≠ []) (below : upper <+: src.dropLast) : ∃ item,base upper = some item ∧ item.isFolder = true := by
  obtain ⟨under,other⟩ := dropLast_proper below solid
  obtain ⟨rest,rfl⟩ := under
  have more : rest ≠ [] := by
    rintro rfl
    exact other (List.append_nil upper).symm
  exact facts.closed upper rest more held

theorem Moved.folders (held : base src ≠ none) (solid : src ≠ []) (outside : ∀ other ∈ moved,other <+: src → other = src) :
    Folders (relocated (place dest) base moved) src.dropLast := by
  intro upper below
  obtain ⟨item,found,folder⟩ := facts.ancestor held solid below
  obtain ⟨under,proper⟩ := dropLast_proper below solid
  refine ⟨item,?_,folder⟩
  rw [facts.intact (by simp [found]),found]
  intro other member above
  have same := outside other member (above.trans under)
  subst same
  exact proper (under.eq_of_length_le above.length_le)

include deep

theorem Moved.back_top (parted : moved = later ++ src::earlier) (top : ∀ other ∈ moved,other <+: src → other = src) :
    back depth dest (relocated (place dest) base moved) src = relocated (place dest) base (later ++ earlier) := by
  have here : src ∈ moved := by simp [parted]
  have held := facts.held src here
  have away := facts.away here held
  have unsame : place dest src ≠ src := fun same => away (by rw [same])
  have gone := facts.gone here List.prefix_rfl held
  have fewer : Moved base dest (later ++ earlier) := facts.sublist (by simp [parted])
  have others : ∀ other ∈ later ++ earlier,¬other <+: src := by
    have order := facts.order
    rw [parted,List.pairwise_append,List.pairwise_cons] at order
    intro other member below
    have same := top other (by simp [parted] at member ⊢; tauto) below
    subst same
    rcases List.mem_append.mp member with one | two
    · exact order.2.2 other one other List.mem_cons_self List.prefix_rfl
    · exact order.2.1.1 other two List.prefix_rfl
  have arrived : relocated (place dest) base moved (place dest src) = base src := by
    have put := relocate_put (relocated (place dest) base (later ++ earlier)) src (place dest src) []
    rw [List.append_nil,List.append_nil] at put
    rw [facts.front parted top,put]
    exact fewer.intact held others
  rw [back_eq deep (facts.deep here),if_neg (by simp [unsame,away,gone]),mkdirAll_done (facts.folders held (facts.deep here) top)]
  simp only
  rw [if_pos (by rw [arrived]; exact Option.isSome_iff_ne_none.mpr held),facts.front parted top]
  apply relocate_back
  intro rest
  rw [relocated_other,facts.empty here rest]
  intro other member
  have there : other ∈ moved := by
    simp only [parted,List.mem_append,List.mem_cons] at member ⊢
    tauto
  have distinct : place dest src ≠ place dest other := by
    have places := facts.places
    rw [parted,List.pairwise_append,List.pairwise_cons] at places
    rcases List.mem_append.mp member with one | two
    · exact (places.2.2 other one src List.mem_cons_self).symm
    · exact places.2.1.1 other two
  exact ⟨(places_apart distinct).outside (List.prefix_append _ rest),(facts.apart here there).outside (List.prefix_append _ rest)⟩

theorem Moved.back_early (here : src ∈ moved) (there : other ∈ moved) (above : other <+: src) (proper : other ≠ src) :
    back depth dest (relocated (place dest) base moved) src other = some .made ∧
      ∀ upper,upper <+: other → back depth dest (relocated (place dest) base moved) src upper ≠ none := by
  have held := facts.held src here
  have away := facts.away here held
  have unsame : place dest src ≠ src := fun same => away (by rw [same])
  have gone := facts.gone here List.prefix_rfl held
  have within : other <+: src.dropLast := proper_dropLast above proper
  have absent := facts.gone there List.prefix_rfl (facts.held other there)
  obtain ⟨next,made⟩ : ∃ next,mkdirAll (relocated (place dest) base moved) src.dropLast = some next := by
    apply mkdirAll_possible
    intro upper below item found
    obtain ⟨old,there,folder⟩ := facts.ancestor held (facts.deep here) below
    by_cases taken : ∃ one ∈ moved,one <+: upper
    · obtain ⟨one,member,atop⟩ := taken
      rw [facts.gone member atop (by simp [there])] at found
      cases found
    · rw [facts.intact (by simp [there]) (fun one member atop => taken ⟨one,member,atop⟩),there] at found
      cases found
      exact folder
  obtain ⟨folders,_,_,fresh⟩ := mkdirAll_parts made
  have kept : ∀ upper,upper <+: other → back depth dest (relocated (place dest) base moved) src upper = next upper := by
    intro upper below
    rw [back_eq deep (facts.deep here),if_neg (by simp [unsame,away,gone]),made]
    simp only
    split
    · apply relocate_other
      · intro under
        exact proper (List.IsPrefix.eq_of_length_le above (under.trans below).length_le)
      · intro under
        exact facts.away here (facts.held other there) (under.trans below)
    · rfl
  constructor
  · rw [kept other List.prefix_rfl]
    exact fresh other within absent
  · intro upper below
    obtain ⟨item,found,_⟩ := folders upper (below.trans within)
    rw [kept upper below,found]
    exact Option.some_ne_none item

theorem Moved.back_again (solid : src ≠ []) (held : base src ≠ none) (outside : ∀ other ∈ moved,¬other <+: src) :
    back depth dest (relocated (place dest) base moved) src = relocated (place dest) base moved := by
  have present := facts.intact held outside
  rw [back_eq deep solid,if_pos]
  rw [present]
  exact .inr (.inr held)

end

theorem back_stays (deep : depth ≤ dest.length) (solid : src ≠ []) (away : ¬place dest src <+: path)
    (held : ∀ upper,upper <+: path → disk upper ≠ none) (below : upper <+: path) : back depth dest disk src upper = disk upper := by
  rw [back_eq deep solid]
  split
  · rfl
  next go =>
    have free : disk src = none := by
      by_contra taken
      exact go (.inr (.inr taken))
    have outside : ¬src <+: upper := fun under => held src (under.trans below) free
    cases made : mkdirAll disk src.dropLast with
    | none => rfl
    | some next =>
        have kept := (mkdirAll_parts made).2.2.1 upper (held upper below)
        simp only
        split
        · rw [relocate_other outside (fun under => away (under.trans below)),kept]
        · exact kept

-- Each source goes back only after every folder above it that was moved too.
def Ordered (moved : List (List Units)) : List (List Units) → List (List Units) → Prop
  | _,[] => True
  | done,src::rest => (∀ other ∈ moved,other <+: src → other ≠ src → other ∈ done) ∧ Ordered moved (src::done) rest

def outstanding (moved done : List (List Units)) : List (List Units) := moved.filter (· ∉ done)

section
variable {base : Disk} {dest : List Units} {moved : List (List Units)} (facts : Moved base dest moved) (deep : depth ≤ dest.length)
include facts deep

theorem Moved.back_next (member : src ∈ moved) (above : ∀ other ∈ moved,other <+: src → other ≠ src → other ∈ done) :
    back depth dest (relocated (place dest) base (outstanding moved done)) src = relocated (place dest) base (outstanding moved (src::done)) := by
  have fewer : Moved base dest (outstanding moved done) := facts.sublist List.filter_sublist
  have top : ∀ other ∈ outstanding moved done,other <+: src → other = src := by
    intro other inside below
    obtain ⟨there,left⟩ := List.mem_filter.mp inside
    by_contra proper
    exact of_decide_eq_true left (above other there below proper)
  by_cases again : src ∈ done
  · have same : outstanding moved (src::done) = outstanding moved done := by
      apply List.filter_congr
      intro other _
      by_cases equal : other = src
      · simp [equal,again]
      · simp [equal]
    rw [same]
    apply fewer.back_again deep (facts.deep member) (facts.held src member)
    intro other inside below
    have equal := top other inside below
    subst equal
    exact of_decide_eq_true (List.mem_filter.mp inside).2 again
  · have here : src ∈ outstanding moved done := List.mem_filter.mpr ⟨member,decide_eq_true again⟩
    obtain ⟨later,earlier,parted⟩ := List.append_of_mem here
    have rest : outstanding moved (src::done) = later ++ earlier := by
      have order := fewer.order
      rw [parted,List.pairwise_append,List.pairwise_cons] at order
      have filtered : outstanding moved (src::done) = (outstanding moved done).filter (· ≠ src) := by
        rw [outstanding,outstanding,List.filter_filter]
        apply List.filter_congr
        intro other _
        simp
      rw [filtered,parted,List.filter_append,List.filter_cons]
      simp only [ne_eq,not_true_eq_false,decide_false,Bool.false_eq_true,if_false]
      rw [List.filter_eq_self.mpr,List.filter_eq_self.mpr]
      · intro other inside
        exact decide_eq_true fun equal => order.2.1.1 other inside (equal ▸ List.prefix_rfl)
      · intro other inside
        exact decide_eq_true fun equal => order.2.2 other inside src List.mem_cons_self (equal ▸ List.prefix_rfl)
    rw [rest]
    exact fewer.back_top deep parted top

theorem Moved.back_kept (there : other ∈ moved) (disk : Disk) (rest : List (List Units)) (inside : ∀ src ∈ rest,src ∈ moved)
    (held : ∀ upper,upper <+: other → disk upper ≠ none) : rest.foldl (back depth dest) disk other = disk other := by
  induction rest generalizing disk with
  | nil => rfl
  | cons src rest ih =>
      have member := inside src List.mem_cons_self
      have stays : ∀ upper,upper <+: other → back depth dest disk src upper = disk upper := fun upper below =>
        back_stays deep (facts.deep member) (facts.away member (facts.held other there)) held below
      have later : ∀ upper,upper <+: other → back depth dest disk src upper ≠ none := by
        intro upper below
        rw [stays upper below]
        exact held upper below
      rw [List.foldl_cons,ih _ (fun one within => inside one (List.mem_cons_of_mem src within)) later]
      exact stays other List.prefix_rfl

theorem Moved.back_all (rest done : List (List Units)) (inside : ∀ src ∈ rest,src ∈ moved) (every : ∀ src ∈ moved,src ∈ done ∨ src ∈ rest)
    (ordered : Ordered moved done rest) : rest.foldl (back depth dest) (relocated (place dest) base (outstanding moved done)) = base := by
  induction rest generalizing done with
  | nil =>
      have none : outstanding moved done = [] := by
        apply List.filter_eq_nil_iff.mpr
        intro src member
        simpa using every src member
      rw [none]
      rfl
  | cons src rest ih =>
      rw [List.foldl_cons,facts.back_next deep (inside src List.mem_cons_self) ordered.1]
      apply ih
      · exact fun one within => inside one (List.mem_cons_of_mem src within)
      · intro one within
        have place := every one within
        simp only [List.mem_cons] at place ⊢
        tauto
      · exact ordered.2

theorem Moved.back_order (old : ∀ src ∈ moved,base src ≠ some .made) (rest done : List (List Units)) (inside : ∀ src ∈ rest,src ∈ moved)
    (closed : ∀ src ∈ done,∀ other ∈ moved,other <+: src → other ≠ src → other ∈ done)
    (restored : ∀ src ∈ moved,rest.foldl (back depth dest) (relocated (place dest) base (outstanding moved done)) src = base src) : Ordered moved done rest := by
  induction rest generalizing done with
  | nil => trivial
  | cons src rest ih =>
      have member := inside src List.mem_cons_self
      have later : ∀ one ∈ rest,one ∈ moved := fun one within => inside one (List.mem_cons_of_mem src within)
      by_cases above : ∀ other ∈ moved,other <+: src → other ≠ src → other ∈ done
      · rw [List.foldl_cons,facts.back_next deep member above] at restored
        refine ⟨above,ih _ later ?_ restored⟩
        intro one within other there below proper
        apply List.mem_cons_of_mem src
        rcases List.mem_cons.mp within with rfl | before
        · exact above other there below proper
        · exact closed one before other there below proper
      · -- The first source that goes back too early leaves a new folder in the
        -- way of the one above it.
        exfalso
        push Not at above
        obtain ⟨other,there,below,proper,left⟩ := above
        have fewer : Moved base dest (outstanding moved done) := facts.sublist List.filter_sublist
        have away : src ∉ done := fun before => left (closed src before other there below proper)
        obtain ⟨made,held⟩ := fewer.back_early deep (List.mem_filter.mpr ⟨member,decide_eq_true away⟩) (List.mem_filter.mpr ⟨there,decide_eq_true left⟩) below proper
        have final := restored other there
        rw [List.foldl_cons,facts.back_kept deep there _ rest later held,made] at final
        exact old other there final.symm

end

structure Reached (disk base now : Disk) (dest : List Units) (moved : List (List Units)) : Prop where
  start : base = disk ∨ mkdirAll disk dest = some base
  ready : moved ≠ [] → mkdirAll disk dest = some base
  facts : Moved base dest moved
  arrived : ∀ src ∈ moved,now (place dest src) ≠ none
  state : now = relocated (place dest) base moved

section
variable {disk base now : Disk} {dest : List Units} {moved : List (List Units)} (reached : Reached disk base now dest moved)
include reached

theorem Reached.folder (made : mkdirAll now dest = some next) : ∃ base,mkdirAll disk dest = some base ∧ Reached disk base next dest moved := by
  have facts := reached.facts
  by_cases none : moved = []
  · subst none
    have same : now = base := reached.state
    subst same
    have fresh : ∃ base,mkdirAll disk dest = some base ∧ next = base := by
      rcases reached.start with rfl | before
      · exact ⟨next,made,rfl⟩
      · rw [mkdirAll_done (mkdirAll_parts before).1] at made
        exact ⟨now,before,(Option.some.inj made).symm⟩
    obtain ⟨base,done,rfl⟩ := fresh
    have closed : Closed next := mkdirAll_closed facts.closed made
    exact ⟨next,done,.inr done,fun _ => done,⟨closed,by simp,by simp,by simp,.nil,.nil⟩,by simp,rfl⟩
  · have before := reached.ready none
    have folders : Folders now dest := by
      intro upper below
      obtain ⟨item,found,folder⟩ := (mkdirAll_parts before).1 upper below
      refine ⟨item,?_,folder⟩
      rw [reached.state,facts.intact (by simp [found]) (fun src member atop => facts.outside src member (atop.trans below)),found]
    rw [mkdirAll_done folders] at made
    cases made
    exact ⟨base,before,reached⟩

theorem Reached.taken (made : mkdirAll disk dest = some base) (held : disk src ≠ none) (free : now (place dest src) = none)
    (outside : ¬src <+: place dest src) (found : now src ≠ none) : Reached disk base (relocate now src (place dest src)) dest (src::moved) := by
  have facts := reached.facts
  have there : base src ≠ none := by
    rw [(mkdirAll_parts made).2.2.1 src held]
    exact held
  have distinct : ∀ other ∈ moved,place dest src ≠ place dest other := fun other member same => reached.arrived other member (same ▸ free)
  have later : ∀ other ∈ moved,¬other <+: src := by
    intro other member below
    rw [reached.state] at found
    exact found (facts.gone member below there)
  have aside : ∀ other ∈ moved,¬other <+: place dest src := by
    intro other member below
    rcases place_prefix below with upper | same
    · exact facts.outside other member upper
    · exact distinct other member (place_again same).symm
  have empty : base (place dest src) = none := by
    rw [← free,reached.state]
    exact (relocated_other fun other member => ⟨(places_apart (distinct other member)).2,aside other member⟩).symm
  refine ⟨.inr made,fun _ => made,⟨facts.closed,?_,?_,?_,?_,?_⟩,?_,?_⟩
  · exact List.forall_mem_cons.mpr ⟨there,facts.held⟩
  · exact List.forall_mem_cons.mpr ⟨empty,facts.free⟩
  · exact List.forall_mem_cons.mpr ⟨fun upper => outside (upper.trans (List.prefix_append dest _)),facts.outside⟩
  · exact List.pairwise_cons.mpr ⟨later,facts.order⟩
  · exact List.pairwise_cons.mpr ⟨distinct,facts.places⟩
  · rw [List.forall_mem_cons]
    constructor
    · have put := relocate_put now src (place dest src) []
      rw [List.append_nil,List.append_nil] at put
      rw [put]
      exact found
    · intro other member
      have apart : ¬src <+: place dest other := by
        intro below
        rcases place_prefix below with upper | same
        · exact outside (upper.trans (List.prefix_append dest _))
        · exact distinct other member (place_again same)
      rw [relocate_other (places_apart (distinct other member)).1 apart]
      exact reached.arrived other member
  · rw [reached.state]
    rfl

theorem Reached.step (depth : Nat) (held : disk src ≠ none) (refused : Bool) :
    ∃ base,Reached disk base (moveOne depth now dest src refused).1 dest
      (if (moveOne depth now dest src refused).2 = true ∧ src.dropLast ≠ dest then src::moved else moved) := by
  have unmoved : ∃ base,Reached disk base now dest moved := ⟨base,reached⟩
  cases last : src.getLast? with
  | none => simpa [moveOne,last] using unmoved
  | some name =>
      have solid : src ≠ [] := by
        rintro rfl
        cases last
      have spot : dest ++ [name] = place dest src := by simp [place,List.getLastD_eq_getLast?,last]
      have whole : src.dropLast ++ [name] = src := List.dropLast_append_getLast? name last
      simp only [moveOne,last,spot]
      by_cases barred : refused = true ∨ src.length ≤ depth
      · simpa [barred] using unmoved
      · rw [if_neg barred]
        by_cases same : src = place dest src
        · have home : src.dropLast = dest := by
            rw [same]
            simp [place]
          rw [if_pos same]
          simpa [home] using unmoved
        · rw [if_neg same]
          by_cases inside : src <+: place dest src
          · simpa [inside] using unmoved
          · rw [if_neg inside]
            cases taken : now (place dest src) with
            | some item => simpa using unmoved
            | none =>
                cases made : mkdirAll now dest with
                | none => simpa using unmoved
                | some next =>
                    obtain ⟨base,done,again⟩ := reached.folder made
                    cases found : next src with
                    | none => exact ⟨base,by simpa [found] using again⟩
                    | some item =>
                        have moves : src.dropLast ≠ dest := by
                          rintro rfl
                          exact same (whole.symm.trans spot)
                        have long : ¬place dest src <+: dest := by
                          intro below
                          have length := below.length_le
                          rw [place,List.length_append,List.length_singleton] at length
                          omega
                        have free : next (place dest src) = none := by rw [(mkdirAll_parts made).2.1 _ long,taken]
                        have gone := again.taken done held free inside (by simp [found])
                        exact ⟨base,by simpa [found,moves] using gone⟩

end

end RemoteFileExplorer.HostMoves

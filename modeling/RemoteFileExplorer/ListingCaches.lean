import Mathlib.Data.Finset.Card
import RemoteFileExplorer.CodeUnits
import RemoteFileExplorer.KeyedEntries
import RemoteFileExplorer.Runs

namespace RemoteFileExplorer.ListingCaches
open Runs CodeUnits
open KeyedEntries hiding put

variable {Listing : Type}

-- `serial` counts the listings in the order in which they were handed to put.
structure Cached (Listing : Type) where
  listing : Listing
  fetchedAt : Int
  serial : Nat

-- Where a put that has its turn stands: before backend.put, before backend.list,
-- or in the loop with the rows that are left. `passed` are the paths that the
-- loop has gone past because they were pinned.
inductive Phase where
  | queued
  | wrote
  | evicting (rest : List (Units × Int)) (toEvict : Int) (passed : List Units)

structure Put (Listing : Type) where
  path : Units
  listing : Listing
  serial : Nat
  phase : Phase

-- `queue` is the promise chain of a host, the put whose turn it is first, and
-- `settled` how a put ended. `leaving` counts the evictions of a host that have
-- removed the rows and not yet the pins, `forgotten` is the first serial after
-- the last of them.
structure State (Listing : Type) where
  rows : Entries (Units × Units) (Cached Listing)
  pins : Finset Units
  queue : Units → List (Put Listing)
  settled : Units → Nat → Option Bool
  serial : Nat
  leaving : Units → Nat
  forgotten : Units → Nat

def start (rows : Entries (Units × Units) (Cached Listing)) (pins : Finset Units) (serial : Nat) : State Listing :=
  ⟨rows,pins,fun _ => [],fun _ _ => none,serial,fun _ => 0,fun _ => 0⟩

def colon : UInt16 := 0x3a

def key (host path : Units) : Units := host ++ colon::path

def ofHost (host k : Units) : Bool := (host ++ [colon]).isPrefixOf k

def at_ {α : Type} (f : Units → α) (host : Units) (a : α) : Units → α := fun other => if other = host then a else f other

def rowsOf (s : State Listing) (host : Units) : List (Units × Int) :=
  (s.rows.list.filter fun row => row.1.1 = host).map fun row => (row.1.2,row.2.fetchedAt)

def count (s : State Listing) (host : Units) : Nat := (rowsOf s host).length

def pinnedPaths (s : State Listing) (host : Units) : Nat := (s.pins.filter fun k => ofHost host k = true).card

-- The rows of the host, oldest first; rows of one time come in any order.
def Lists (s : State Listing) (host : Units) (all : List (Units × Int)) : Prop := all.Perm (rowsOf s host) ∧ all.Pairwise fun row later => row.2 ≤ later.2

instance (s : State Listing) (host : Units) (all : List (Units × Int)) : Decidable (Lists s host all) :=
  inferInstanceAs (Decidable (_ ∧ _))

def get (s : State Listing) (host path : Units) : Option (Listing × Int) := (s.rows.get (host,path)).map fun row => (row.listing,row.fetchedAt)

def finish (s : State Listing) (host : Units) (put : Put Listing) (later : List (Put Listing)) (ok : Bool) : State Listing :=
  { s with
    queue := at_ s.queue host later
    settled := at_ s.settled host fun serial => if serial = put.serial then some ok else s.settled host serial }

inductive Event (Listing : Type) where
  | put (host path : Units) (listing : Listing)
  | writes (host : Units) (now : Int) (ok : Bool)
  | lists (host : Units) (all : List (Units × Int)) (ok : Bool)
  | resumes (host : Units) (ok : Bool)
  | gets (host path : Units)
  | setPinned (k : Units) (pinned : Bool)
  | syncPinned (host : Units) (paths : List Units)
  | evicts (host : Units) (ok : Bool)
  | clears (host : Units)

section Steps
variable (maxEntries : Nat)

-- What the loop goes past without a removal.
def passes (s : State Listing) (host own : Units) (row : Units × Int) : Bool := key host row.1 ∈ s.pins || row.1 = own

def passedBy (s : State Listing) (host own : Units) (rest : List (Units × Int)) : List Units :=
  ((rest.takeWhile (passes s host own)).map Prod.fst).filter fun path => key host path ∈ s.pins

def resume (s : State Listing) (host : Units) (put : Put Listing) (later : List (Put Listing)) (rest : List (Units × Int)) (toEvict : Int)
    (passed : List Units) (ok : Bool) : State Listing :=
  if toEvict ≤ 0 then finish s host put later true else
  match rest.dropWhile (passes s host put.path) with
  | [] => finish s host put later true
  | row::left =>
    if !ok then finish s host put later false else
    { s with
      rows := s.rows.remove (host,row.1)
      queue := at_ s.queue host ({ put with phase := .evicting left (toEvict - 1) (passed ++ passedBy s host put.path rest) }::later) }

def pinsAfter (s : State Listing) : Event Listing → Finset Units
  | .setPinned k pinned => if pinned then insert k s.pins else s.pins.erase k
  | .syncPinned host paths => (s.pins.filter fun k => ofHost host k = false) ∪ (paths.map (key host)).toFinset
  | .clears host => s.pins.filter fun k => ofHost host k = false
  | .put _ _ _ | .writes _ _ _ | .lists _ _ _ | .resumes _ _ | .gets _ _ | .evicts _ _ => s.pins

def step (s : State Listing) : Event Listing → Option (State Listing)
  | .put host path listing => some { s with queue := at_ s.queue host (s.queue host ++ [⟨path,listing,s.serial,.queued⟩]),serial := s.serial + 1 }
  | .writes host now ok =>
    match s.queue host with
    | ⟨path,listing,serial,.queued⟩::later =>
      if !ok then some (finish s host ⟨path,listing,serial,.queued⟩ later false) else
      some { s with rows := s.rows.set (host,path) ⟨listing,now,serial⟩,queue := at_ s.queue host (⟨path,listing,serial,.wrote⟩::later) }
    | _ => none
  | .lists host all ok =>
    match s.queue host with
    | ⟨path,listing,serial,.wrote⟩::later =>
      if !ok then some (finish s host ⟨path,listing,serial,.wrote⟩ later false) else
      if Lists s host all then
        some { s with queue := at_ s.queue host (⟨path,listing,serial,.evicting all (all.length - maxEntries) []⟩::later) }
      else none
    | _ => none
  | .resumes host ok =>
    match s.queue host with
    | ⟨path,listing,serial,.evicting rest toEvict passed⟩::later =>
      some (resume s host ⟨path,listing,serial,.evicting rest toEvict passed⟩ later rest toEvict passed ok)
    | _ => none
  | .gets _ _ => some s
  | .setPinned k pinned => some { s with pins := pinsAfter s (.setPinned k pinned) }
  | .syncPinned host paths => some { s with pins := pinsAfter s (.syncPinned host paths) }
  | .evicts host ok =>
    if !ok then some s else
    some { s with
      rows := s.rows.keep fun row => row.1 ≠ host
      leaving := at_ s.leaving host (s.leaving host + 1)
      forgotten := at_ s.forgotten host s.serial }
  | .clears host =>
    if s.leaving host = 0 then none else
    some { s with pins := pinsAfter s (.clears host),leaving := at_ s.leaving host (s.leaving host - 1) }

end Steps

structure Kept (maxEntries : Nat) (s : State Listing) (event : Event Listing) (next : State Listing) : Prop where
  bounded : ∀ host put later, s.queue host = put::later → s.settled host put.serial = none → next.settled host put.serial = some true →
    count next host ≤ max maxEntries (pinnedPaths next host + 1)
  evicted : ∀ host path row, s.rows.get (host,path) = some row → next.rows.get (host,path) = none → event ≠ .evicts host true →
    ∃ put later, s.queue host = put::later ∧ path ≠ put.path ∧ key host path ∉ s.pins ∧
      ∀ other old, s.rows.get (host,other) = some old → other ≠ put.path → key host other ∉ s.pins → row.fetchedAt ≤ old.fetchedAt

-- No row of a host is one that had been handed over before the host was evicted.
def Forgets (s : State Listing) : Prop := ∀ host path row, s.rows.get (host,path) = some row → s.forgotten host ≤ row.serial

def Spares (s : State Listing) (event : Event Listing) : Prop :=
  ∀ host put later rest toEvict passed, s.queue host = put::later → put.phase = .evicting rest toEvict passed →
    ∀ path ∈ passed, (s.rows.get (host,path)).isSome = true → key host path ∈ pinsAfter s event

def Careful (s : State Listing) : Event Listing → Prop
  | .evicts host ok => ok = true → ∀ put ∈ s.queue host, put.phase ≠ .queued
  | .setPinned k pinned => Spares s (.setPinned k pinned)
  | .syncPinned host paths => Spares s (.syncPinned host paths)
  | .clears host => Spares s (.clears host)
  | .put _ _ _ | .writes _ _ _ | .lists _ _ _ | .resumes _ _ | .gets _ _ => True

section Rows
variable {s next : State Listing} {host path : Units}

theorem mem_rowsOf : (path,time) ∈ rowsOf s host ↔ ∃ row, s.rows.get (host,path) = some row ∧ row.fetchedAt = time := by
  unfold rowsOf
  simp only [List.mem_map,List.mem_filter,decide_eq_true_eq,Prod.mk.injEq]
  constructor
  · rintro ⟨⟨⟨one,two⟩,row⟩,⟨member,rfl⟩,rfl,rfl⟩
    exact ⟨row,mem_get member,rfl⟩
  · rintro ⟨row,found,rfl⟩
    exact ⟨((host,path),row),⟨get_mem found,rfl⟩,rfl,rfl⟩

theorem rowsOf_distinct (s : State Listing) (host : Units) : ((rowsOf s host).map Prod.fst).Nodup := by
  unfold rowsOf
  rw [List.map_map]
  have names : (s.rows.list.filter fun row => row.1.1 = host).Pairwise fun one other => one.1 ≠ other.1 :=
    (List.pairwise_map.mp s.rows.distinct).filter _
  refine List.pairwise_map.mpr (names.imp_of_mem ?_)
  intro one other first second differs same
  apply differs
  have here := (List.mem_filter.mp first).2
  have there := (List.mem_filter.mp second).2
  simp only [decide_eq_true_eq] at here there
  exact Prod.ext (here.trans there.symm) same

theorem paths_iff : path ∈ (rowsOf s host).map Prod.fst ↔ (s.rows.get (host,path)).isSome = true := by
  rw [List.mem_map,Option.isSome_iff_exists]
  constructor
  · rintro ⟨⟨other,time⟩,member,rfl⟩
    obtain ⟨row,found,_⟩ := mem_rowsOf.mp member
    exact ⟨row,found⟩
  · rintro ⟨row,found⟩
    exact ⟨(path,row.fetchedAt),mem_rowsOf.mpr ⟨row,found,rfl⟩,rfl⟩

theorem count_paths (s : State Listing) (host : Units) : count s host = ((rowsOf s host).map Prod.fst).length := (List.length_map _).symm

theorem count_le (fewer : ∀ path, (next.rows.get (host,path)).isSome = true → (s.rows.get (host,path)).isSome = true) : count next host ≤ count s host := by
  rw [count_paths,count_paths]
  exact ((rowsOf_distinct next host).subperm fun path member => paths_iff.mpr (fewer path (paths_iff.mp member))).length_le

theorem count_less (cached : (s.rows.get (host,path)).isSome = true)
    (fewer : ∀ other, (next.rows.get (host,other)).isSome = true → other ≠ path ∧ (s.rows.get (host,other)).isSome = true) : count next host + 1 ≤ count s host := by
  rw [count_paths,count_paths]
  have more : (path::(rowsOf next host).map Prod.fst).Nodup :=
    List.nodup_cons.mpr ⟨fun member => (fewer path (paths_iff.mp member)).1 rfl,rowsOf_distinct next host⟩
  have inside : path::(rowsOf next host).map Prod.fst ⊆ (rowsOf s host).map Prod.fst := by
    intro other member
    rcases List.mem_cons.mp member with rfl | member
    · exact paths_iff.mpr cached
    · exact paths_iff.mpr (fewer other (paths_iff.mp member)).2
  exact (more.subperm inside).length_le

theorem key_injective (same : key host path = key host other) : path = other := by
  have tails := List.append_cancel_left same
  exact (List.cons.inj tails).2

theorem key_ofHost (host path : Units) : ofHost host (key host path) = true := by
  rw [ofHost,List.isPrefixOf_iff_prefix]
  exact ⟨path,by simp [key]⟩

theorem count_pinned (own : Units) (pinned : ∀ path, (s.rows.get (host,path)).isSome = true → path = own ∨ key host path ∈ s.pins) :
    count s host ≤ pinnedPaths s host + 1 := by
  rw [count_paths]
  have distinct := rowsOf_distinct s host
  have others : (((rowsOf s host).map Prod.fst).toFinset.erase own).image (key host) ⊆ s.pins.filter fun k => ofHost host k = true := by
    intro k member
    obtain ⟨path,listed,rfl⟩ := Finset.mem_image.mp member
    obtain ⟨differs,listed⟩ := Finset.mem_erase.mp listed
    have cached := paths_iff.mp (List.mem_toFinset.mp listed)
    exact Finset.mem_filter.mpr ⟨(pinned path cached).resolve_left differs,key_ofHost host path⟩
  have few := Finset.card_le_card others
  rw [Finset.card_image_of_injOn fun one _ other _ same => key_injective same] at few
  have rest := Finset.pred_card_le_card_erase (s := ((rowsOf s host).map Prod.fst).toFinset) (a := own)
  rw [List.toFinset_card_of_nodup distinct] at rest
  unfold pinnedPaths
  omega

end Rows

inductive Moves (maxEntries : Nat) (s : State Listing) : Event Listing → State Listing → Prop where
  | put (host path : Units) (listing : Listing) : Moves maxEntries s (.put host path listing)
      { s with queue := at_ s.queue host (s.queue host ++ [⟨path,listing,s.serial,.queued⟩]),serial := s.serial + 1 }
  | writes (head : s.queue host = put::later) (was : put.phase = .queued) (now : Int) : Moves maxEntries s (.writes host now true)
      { s with rows := s.rows.set (host,put.path) ⟨put.listing,now,put.serial⟩,queue := at_ s.queue host ({ put with phase := .wrote }::later) }
  | lists (head : s.queue host = put::later) (was : put.phase = .wrote) (listed : Lists s host all) : Moves maxEntries s (.lists host all true)
      { s with queue := at_ s.queue host ({ put with phase := .evicting all (all.length - maxEntries) [] }::later) }
  | fails (head : s.queue host = put::later) : Moves maxEntries s event (finish s host put later false)
  | completes (head : s.queue host = put::later) (was : put.phase = .evicting rest toEvict passed)
      (plenty : toEvict ≤ 0 ∨ rest.dropWhile (passes s host put.path) = []) : Moves maxEntries s (.resumes host ok) (finish s host put later true)
  | removes (head : s.queue host = put::later) (was : put.phase = .evicting rest toEvict passed) (more : 0 < toEvict)
      (front : rest.dropWhile (passes s host put.path) = row::left) : Moves maxEntries s (.resumes host ok)
      { s with
        rows := s.rows.remove (host,row.1)
        queue := at_ s.queue host ({ put with phase := .evicting left (toEvict - 1) (passed ++ passedBy s host put.path rest) }::later) }
  | stays : Moves maxEntries s event s
  | pins (spares : Careful s event → Spares s event) (leaving : Units → Nat) : Moves maxEntries s event { s with pins := pinsAfter s event,leaving := leaving }
  | evicts (host : Units) : Moves maxEntries s (.evicts host true)
      { s with
        rows := s.rows.keep fun row => row.1 ≠ host
        leaving := at_ s.leaving host (s.leaving host + 1)
        forgotten := at_ s.forgotten host s.serial }

section Turns
variable {s next : State Listing} {maxEntries : Nat} {event : Event Listing}

theorem step_moves (stepped : step maxEntries s event = some next) : Moves maxEntries s event next := by
  cases event with
  | put host path listing =>
    cases stepped
    exact .put host path listing
  | writes host now ok =>
    simp only [step] at stepped
    split at stepped
    · rename_i head
      cases ok with
      | false =>
        cases stepped
        exact .fails head
      | true =>
        cases stepped
        exact .writes head rfl now
    · cases stepped
  | lists host all ok =>
    simp only [step] at stepped
    split at stepped
    · rename_i head
      cases ok with
      | false =>
        cases stepped
        exact .fails head
      | true =>
        obtain ⟨listed,same⟩ := Option.ite_none_right_eq_some.mp stepped
        cases same
        exact .lists head rfl listed
    · cases stepped
  | resumes host ok =>
    simp only [step] at stepped
    split at stepped
    · rename_i path listing serial rest toEvict passed later head
      cases stepped
      unfold resume
      split
      · exact .completes head rfl (.inl ‹_›)
      · split
        · exact .completes head rfl (.inr ‹_›)
        · rename_i row left front
          cases ok with
          | false => exact .fails head
          | true => exact .removes head rfl (by omega) front
    · cases stepped
  | gets host path =>
    cases stepped
    exact .stays
  | setPinned k pinned | syncPinned host paths =>
    cases stepped
    exact .pins id s.leaving
  | evicts host ok =>
    cases ok with
    | false =>
      cases stepped
      exact .stays
    | true =>
      cases stepped
      exact .evicts host
  | clears host =>
    obtain ⟨_,same⟩ := Option.ite_none_left_eq_some.mp stepped
    cases same
    exact .pins id _

-- A put in its loop: every cached row is the one it has written, or still to
-- come, or was passed and is pinned; and what is to be removed is enough.
structure Turn (maxEntries : Nat) (s : State Listing) (host own : Units) (rest : List (Units × Int)) (toEvict : Int) (passed : List Units) : Prop where
  covered : ∀ path row, s.rows.get (host,path) = some row → path = own ∨ (path,row.fetchedAt) ∈ rest ∨ path ∈ passed
  pinned : ∀ path ∈ passed, (s.rows.get (host,path)).isSome = true → key host path ∈ s.pins
  sorted : rest.Pairwise fun row later => row.2 ≤ later.2
  distinct : (rest.map Prod.fst).Nodup
  small : (∀ path, s.rows.get (host,path) = none) ∨ ((∀ row ∈ rest, (s.rows.get (host,row.1)).isSome = true) ∧ (count s host : Int) ≤ maxEntries + toEvict)

structure Sound (maxEntries : Nat) (s : State Listing) : Prop where
  waiting : ∀ host put later, s.queue host = put::later → ∀ other ∈ later, other.phase = .queued
  turn : ∀ host put later rest toEvict passed, s.queue host = put::later → put.phase = .evicting rest toEvict passed →
    Turn maxEntries s host put.path rest toEvict passed
  handed : ∀ host, ∀ put ∈ s.queue host, put.phase = .queued → s.forgotten host ≤ put.serial
  forgets : Forgets s
  serials : ∀ host, s.forgotten host ≤ s.serial

-- What a turn of one host needs of a step: its rows stay, and so do the pins of
-- the paths that it has passed.
theorem turn_stays (turn : Turn maxEntries s host own rest toEvict passed) (same : ∀ path, next.rows.get (host,path) = s.rows.get (host,path))
    (kept : ∀ path ∈ passed, (s.rows.get (host,path)).isSome = true → key host path ∈ next.pins) : Turn maxEntries next host own rest toEvict passed := by
  refine ⟨?_,?_,turn.sorted,turn.distinct,?_⟩
  · intro path row found
    exact turn.covered path row (same path ▸ found)
  · intro path member cached
    exact kept path member (same path ▸ cached)
  · rcases turn.small with none | ⟨all,few⟩
    · exact .inl fun path => (same path).trans (none path)
    · have fewer : count next host ≤ count s host := count_le fun path cached => same path ▸ cached
      exact .inr ⟨fun row member => same row.1 ▸ all row member,by omega⟩

theorem at_same {α : Type} (f : Units → α) (host : Units) (a : α) : at_ f host a host = a := if_pos rfl

theorem at_other {α : Type} (f : Units → α) (a : α) (differs : other ≠ host) : at_ f host a other = f other := if_neg differs

-- A step that changes the queue of one host, and rows of that host only.
theorem sound_at (sound : Sound maxEntries s) (host : Units) (queue : List (Put Listing)) (rows : Entries (Units × Units) (Cached Listing))
    (settled : Units → Nat → Option Bool) (serial : Nat) (apart : ∀ other path, other ≠ host → rows.get (other,path) = s.rows.get (other,path))
    (waiting : ∀ put later, queue = put::later → ∀ other ∈ later, other.phase = .queued)
    (turn : ∀ put later rest toEvict passed, queue = put::later → put.phase = .evicting rest toEvict passed →
      Turn maxEntries { s with rows := rows } host put.path rest toEvict passed)
    (handed : ∀ put ∈ queue, put.phase = .queued → s.forgotten host ≤ put.serial)
    (forgets : ∀ path row, rows.get (host,path) = some row → s.forgotten host ≤ row.serial) (later : s.serial ≤ serial) :
    Sound maxEntries { s with rows := rows,queue := at_ s.queue host queue,settled := settled,serial := serial } := by
  refine ⟨?_,?_,?_,?_,fun other => Nat.le_trans (sound.serials other) later⟩
  · intro other put rest head
    by_cases here : other = host
    · subst here
      exact waiting put rest (by simpa [at_same] using head)
    · exact sound.waiting other put rest (by simpa [at_other _ _ here] using head)
  · intro other put rest left toEvict passed head was
    by_cases here : other = host
    · subst here
      have own := turn put rest left toEvict passed (by simpa [at_same] using head) was
      exact ⟨own.covered,own.pinned,own.sorted,own.distinct,own.small⟩
    · have theirs := sound.turn other put rest left toEvict passed (by simpa [at_other _ _ here] using head) was
      exact turn_stays theirs (fun path => apart other path here) theirs.pinned
  · intro other put member was
    by_cases here : other = host
    · subst here
      exact handed put (by simpa [at_same] using member) was
    · exact sound.handed other put (by simpa [at_other _ _ here] using member) was
  · intro other path row found
    by_cases here : other = host
    · subst here
      exact forgets path row found
    · exact sound.forgets other path row ((apart other path here) ▸ found)

theorem finish_sound (sound : Sound maxEntries s) (head : s.queue host = put::later) (ok : Bool) : Sound maxEntries (finish s host put later ok) := by
  have queued := sound.waiting host put later head
  refine sound_at sound host later s.rows _ s.serial (fun _ _ _ => rfl) ?_ ?_ ?_ (sound.forgets host) (Nat.le_refl _)
  · intro first rest same other member
    exact queued other (by rw [same]; exact List.mem_cons_of_mem _ member)
  · intro first rest left toEvict passed same was
    have waits := queued first (by rw [same]; exact List.mem_cons_self ..)
    rw [was] at waits
    cases waits
  · intro other member was
    exact sound.handed host other (by rw [head]; exact List.mem_cons_of_mem _ member) was

theorem advance_sound (sound : Sound maxEntries s) (head : s.queue host = put::later) (phase : Phase) (rows : Entries (Units × Units) (Cached Listing))
    (apart : ∀ other path, other ≠ host → rows.get (other,path) = s.rows.get (other,path)) (written : phase ≠ .queued)
    (turn : ∀ rest toEvict passed, phase = .evicting rest toEvict passed → Turn maxEntries { s with rows := rows } host put.path rest toEvict passed)
    (forgets : ∀ path row, rows.get (host,path) = some row → s.forgotten host ≤ row.serial) :
    Sound maxEntries { s with rows := rows,queue := at_ s.queue host ({ put with phase := phase }::later) } := by
  have queued := sound.waiting host put later head
  refine sound_at sound host ({ put with phase := phase }::later) rows s.settled s.serial apart ?_ ?_ ?_ forgets (Nat.le_refl _)
  · intro first rest same
    cases same
    exact queued
  · intro first rest left toEvict passed same was
    cases same
    exact turn left toEvict passed was
  · intro other member was
    rcases List.mem_cons.mp member with rfl | inside
    · exact absurd was written
    · exact sound.handed host other (by rw [head]; exact List.mem_cons_of_mem _ inside) was

theorem lists_turn (listed : Lists s host all) (own : Units) : Turn maxEntries s host own all (all.length - maxEntries) [] := by
  obtain ⟨perm,sorted⟩ := listed
  refine ⟨?_,nofun,sorted,?_,.inr ⟨?_,?_⟩⟩
  · intro path row found
    exact .inr (.inl (perm.mem_iff.mpr (mem_rowsOf.mpr ⟨row,found,rfl⟩)))
  · exact (perm.map Prod.fst).nodup_iff.mpr (rowsOf_distinct s host)
  · intro row member
    exact paths_iff.mp (List.mem_map_of_mem (perm.mem_iff.mp member))
  · have length : count s host = all.length := perm.length_eq.symm
    omega

theorem mem_passedBy (front : (path,time) ∈ rest.takeWhile (passes s host own)) :
    path = own ∨ path ∈ passedBy s host own rest := by
  have goes := List.mem_takeWhile_imp front
  unfold passes at goes
  simp only [Bool.or_eq_true,decide_eq_true_eq] at goes
  rcases goes with pinned | same
  · exact .inr (List.mem_filter.mpr ⟨List.mem_map_of_mem front,decide_eq_true pinned⟩)
  · exact .inl same

theorem removes_turn (turn : Turn maxEntries s host own rest toEvict passed)
    (front : rest.dropWhile (passes s host own) = row::left) :
    Turn maxEntries { s with rows := s.rows.remove (host,row.1) } host own left (toEvict - 1) (passed ++ passedBy s host own rest) := by
  have split : rest = rest.takeWhile (passes s host own) ++ row::left := by rw [← front,List.takeWhile_append_dropWhile]
  have sorted := turn.sorted
  have distinct := turn.distinct
  rw [split,List.pairwise_append,List.pairwise_cons] at sorted
  rw [split,List.map_append,List.map_cons,List.nodup_append,List.nodup_cons] at distinct
  have gets : ∀ path, (s.rows.remove (host,row.1)).get (host,path) = if path = row.1 then none else s.rows.get (host,path) := by
    intro path
    rw [get_remove]
    simp
  refine ⟨?_,?_,sorted.2.1.2,distinct.2.1.2,?_⟩
  · intro path cached found
    rw [gets] at found
    split at found
    · cases found
    · rename_i differs
      rcases turn.covered path cached found with same | inside | gone
      · exact .inl same
      · rw [split] at inside
        rcases List.mem_append.mp inside with before | after
        · rcases mem_passedBy before with same | gone
          · exact .inl same
          · exact .inr (.inr (List.mem_append_right _ gone))
        · rcases List.mem_cons.mp after with same | later
          · exact absurd (congrArg Prod.fst same) differs
          · exact .inr (.inl later)
      · exact .inr (.inr (List.mem_append_left _ gone))
  · intro path member cached
    rw [gets] at cached
    split at cached
    · cases cached
    · rcases List.mem_append.mp member with before | now
      · exact turn.pinned path before cached
      · exact of_decide_eq_true (List.mem_filter.mp now).2
  · rcases turn.small with none | ⟨all,few⟩
    · left
      intro path
      rw [gets,none path]
      exact ite_self _
    · right
      refine ⟨?_,?_⟩
      · intro later member
        have differs : later.1 ≠ row.1 := fun same => distinct.2.1.1 (same ▸ List.mem_map_of_mem member)
        rw [gets,if_neg differs]
        exact all later (by rw [split]; exact List.mem_append_right _ (List.mem_cons_of_mem _ member))
      · have cached : (s.rows.get (host,row.1)).isSome = true := all row (by rw [split]; exact List.mem_append_right _ (List.mem_cons_self ..))
        have less : count { s with rows := s.rows.remove (host,row.1) } host + 1 ≤ count s host := by
          refine count_less cached ?_
          intro other still
          rw [gets] at still
          split at still
          · cases still
          · exact ⟨‹_›,still⟩
        omega

theorem step_sound (sound : Sound maxEntries s) (careful : Careful s event) (stepped : step maxEntries s event = some next) : Sound maxEntries next := by
  cases step_moves stepped with
  | put host path listing =>
    refine sound_at sound host _ s.rows s.settled (s.serial + 1) (fun _ _ _ => rfl) ?_ ?_ ?_ (sound.forgets host) (Nat.le_succ _)
    · intro first rest same other member
      cases queue : s.queue host with
      | nil =>
        rw [queue] at same
        cases same
        cases member
      | cons one more =>
        rw [queue] at same
        cases same
        rcases List.mem_append.mp member with old | new
        · exact sound.waiting host _ more queue other old
        · rw [List.mem_singleton.mp new]
    · intro first rest left toEvict passed same was
      cases queue : s.queue host with
      | nil =>
        rw [queue] at same
        cases same
        cases was
      | cons one more =>
        rw [queue] at same
        cases same
        exact sound.turn host _ more left toEvict passed queue was
    · intro other member was
      rcases List.mem_append.mp member with old | new
      · exact sound.handed host other old was
      · rw [List.mem_singleton.mp new]
        exact sound.serials host
  | @writes host put later head was now =>
    refine advance_sound sound head .wrote _ ?_ (by simp) (by simp) ?_
    · intro other path differs
      exact get_set_other fun same => differs (congrArg Prod.fst same)
    · intro path row found
      rw [get_set] at found
      split at found
      · cases found
        exact sound.handed host put (by rw [head]; exact List.mem_cons_self ..) was
      · exact sound.forgets host path row found
  | @lists host put later all head was listed =>
    refine advance_sound sound head _ s.rows (fun _ _ _ => rfl) (by simp) ?_ (sound.forgets host)
    intro rest toEvict passed same
    cases same
    exact lists_turn listed put.path
  | fails head => exact finish_sound sound head false
  | completes head was plenty => exact finish_sound sound head true
  | @removes host put later rest toEvict passed row left ok head was more front =>
    refine advance_sound sound head _ _ ?_ (by simp) ?_ ?_
    · intro other path differs
      rw [get_remove,if_neg fun same => differs (congrArg Prod.fst same)]
    · intro rest_ toEvict_ passed_ same
      cases same
      exact removes_turn (sound.turn host put later rest toEvict passed head was) front
    · intro path cached found
      rw [get_remove] at found
      split at found
      · cases found
      · exact sound.forgets host path cached found
  | stays => exact sound
  | pins spares leaving =>
    refine ⟨sound.waiting,?_,sound.handed,sound.forgets,sound.serials⟩
    intro host put later rest toEvict passed head was
    exact turn_stays (sound.turn host put later rest toEvict passed head was) (fun _ => rfl) (spares careful host put later rest toEvict passed head was)
  | evicts host =>
    have gets : ∀ other path, (s.rows.keep fun row => row.1 ≠ host).get (other,path) = if other = host then none else s.rows.get (other,path) := by
      intro other path
      rw [get_keep]
      by_cases here : other = host <;> simp [here]
    refine ⟨sound.waiting,?_,?_,?_,?_⟩
    · intro other put later rest toEvict passed head was
      have turn := sound.turn other put later rest toEvict passed head was
      by_cases here : other = host
      · have none : ∀ path, (s.rows.keep fun row => row.1 ≠ host).get (other,path) = none := by
          intro path
          rw [gets,if_pos here]
        refine ⟨?_,?_,turn.sorted,turn.distinct,.inl none⟩
        · intro path row found
          rw [none] at found
          cases found
        · intro path _ cached
          rw [none] at cached
          cases cached
      · exact turn_stays turn (fun path => by rw [gets,if_neg here]) turn.pinned
    · intro other put member was
      by_cases here : other = host
      · subst here
        exact absurd was (careful rfl put member)
      · simpa [at_other _ _ here] using sound.handed other put member was
    · intro other path row found
      rw [gets] at found
      split at found
      · cases found
      · rename_i here
        simpa [at_other _ _ here] using sound.forgets other path row found
    · intro other
      by_cases here : other = host
      · subst here
        simp [at_same]
      · simpa [at_other _ _ here] using sound.serials other

theorem over_bounded (turn : Turn maxEntries s host own rest toEvict passed) (plenty : toEvict ≤ 0 ∨ rest.dropWhile (passes s host own) = []) :
    count s host ≤ max maxEntries (pinnedPaths s host + 1) := by
  rcases plenty with done | front
  · rcases turn.small with none | ⟨_,few⟩
    · have empty : count s host ≤ pinnedPaths s host + 1 := by
        refine count_pinned own ?_
        intro path cached
        rw [none] at cached
        cases cached
      omega
    · omega
  · have whole : rest = rest.takeWhile (passes s host own) := by
      conv => lhs; rw [← List.takeWhile_append_dropWhile (p := passes s host own) (l := rest),front,List.append_nil]
    have pinned : count s host ≤ pinnedPaths s host + 1 := by
      refine count_pinned own ?_
      intro path cached
      obtain ⟨row,found⟩ := Option.isSome_iff_exists.mp cached
      rcases turn.covered path row found with same | inside | gone
      · exact .inl same
      · rw [whole] at inside
        rcases mem_passedBy inside with same | listed
        · exact .inl same
        · exact .inr (of_decide_eq_true (List.mem_filter.mp listed).2)
      · exact .inr (turn.pinned path gone cached)
    omega

theorem removed_oldest (turn : Turn maxEntries s host own rest toEvict passed) (front : rest.dropWhile (passes s host own) = row::left)
    (cached : s.rows.get (host,row.1) = some now) : row.1 ≠ own ∧ key host row.1 ∉ s.pins ∧
      ∀ other old, s.rows.get (host,other) = some old → other ≠ own → key host other ∉ s.pins → now.fetchedAt ≤ old.fetchedAt := by
  have split : rest = rest.takeWhile (passes s host own) ++ row::left := by rw [← front,List.takeWhile_append_dropWhile]
  have stops : passes s host own row = false := by
    have head := List.head?_dropWhile_not (passes s host own) rest
    rw [front] at head
    exact head
  simp only [passes,Bool.or_eq_false_iff,decide_eq_false_iff_not] at stops
  have later : ∀ other old, s.rows.get (host,other) = some old → other ≠ own → key host other ∉ s.pins → (other,old.fetchedAt) ∈ row::left := by
    intro other old found differs free
    rcases turn.covered other old found with same | inside | gone
    · exact absurd same differs
    · rw [split] at inside
      rcases List.mem_append.mp inside with before | after
      · rcases mem_passedBy before with same | listed
        · exact absurd same differs
        · exact absurd (of_decide_eq_true (List.mem_filter.mp listed).2) free
      · exact after
    · exact absurd (turn.pinned other gone (by rw [found]; rfl)) free
  have distinct := turn.distinct
  have sorted := turn.sorted
  rw [split,List.pairwise_append,List.pairwise_cons] at sorted
  rw [split,List.map_append,List.map_cons,List.nodup_append,List.nodup_cons] at distinct
  have stamp : now.fetchedAt = row.2 := by
    rcases List.mem_cons.mp (later row.1 now cached stops.2 stops.1) with same | inside
    · exact congrArg Prod.snd same
    · exact absurd (List.mem_map_of_mem (f := Prod.fst) inside) distinct.2.1.1
  refine ⟨stops.2,stops.1,?_⟩
  intro other old found differs free
  rw [stamp]
  rcases List.mem_cons.mp (later other old found differs free) with same | inside
  · exact Int.le_of_eq (congrArg Prod.snd same).symm
  · exact sorted.2.1.1 _ inside

theorem step_kept (sound : Sound maxEntries s) (stepped : step maxEntries s event = some next) : Kept maxEntries s event next := by
  have quiet : ∀ {after : State Listing}, (∀ host serial, after.settled host serial = s.settled host serial) →
      (∀ host path row, s.rows.get (host,path) = some row → after.rows.get (host,path) ≠ none) → Kept maxEntries s event after := by
    intro after same stays
    refine ⟨?_,?_⟩
    · intro host put later _ open_ done
      rw [same,open_] at done
      cases done
    · intro host path row found gone
      exact absurd gone (stays host path row found)
  have still : ∀ host path row, s.rows.get (host,path) = some row → s.rows.get (host,path) ≠ none := by
    intro host path row found
    rw [found]
    simp
  cases step_moves stepped with
  | put host path listing | lists head was listed | stays | pins spares leaving => exact quiet (fun _ _ => rfl) still
  | @writes host put later head was now =>
    refine quiet (fun _ _ => rfl) ?_
    intro other path row found
    rw [get_set]
    split
    · simp
    · exact still other path row found
  | @fails host put later event head =>
    refine ⟨?_,fun other path row found gone => absurd gone (still other path row found)⟩
    intro other first rest front open_ done
    by_cases here : other = host
    · subst here
      simp only [finish,at_same] at done
      split at done
      · cases done
      · rw [open_] at done
        cases done
    · simp only [finish,at_other _ _ here] at done
      rw [open_] at done
      cases done
  | @completes host put later rest toEvict passed ok head was plenty =>
    refine ⟨?_,fun other path row found gone => absurd gone (still other path row found)⟩
    intro other first rest front open_ done
    by_cases here : other = host
    · subst here
      have few := over_bounded (sound.turn _ _ _ _ _ _ head was) plenty
      exact few
    · simp only [finish,at_other _ _ here] at done
      rw [open_] at done
      cases done
  | @removes host put later rest toEvict passed row left ok head was more front =>
    refine ⟨?_,?_⟩
    · intro other first rest _ open_ done
      rw [open_] at done
      cases done
    · intro other path cached found gone _
      rw [get_remove] at gone
      split at gone
      · rename_i same
        cases same
        exact ⟨put,later,head,removed_oldest (sound.turn _ _ _ _ _ _ head was) front found⟩
      · exact absurd gone (still other path cached found)
  | evicts host =>
    refine ⟨?_,?_⟩
    · intro other first rest _ open_ done
      rw [open_] at done
      cases done
    · intro other path row found gone differs
      have here : other ≠ host := by
        rintro rfl
        exact differs rfl
      rw [get_keep,if_pos (by simpa using here)] at gone
      exact absurd gone (still other path row found)

theorem start_sound (rows : Entries (Units × Units) (Cached Listing)) (pins : Finset Units) (serial : Nat) :
    Sound maxEntries (start rows pins serial) := by
  refine ⟨?_,?_,?_,?_,fun _ => Nat.zero_le _⟩
  · intro host put later head
    cases head
  · intro host put later rest toEvict passed head
    cases head
  · intro host put member
    cases member
  · intro host path row found
    exact Nat.zero_le _

-- The run has forgotten the hosts that were evicted, and whatever happens next
-- keeps the bounds.
theorem cache_keeps {rows : Entries (Units × Units) (Cached Listing)} {pins : Finset Units} {serial : Nat} {events : List (Event Listing)}
    (careful : Every (step maxEntries) Careful (start rows pins serial) events) (ran : run (step maxEntries) (start rows pins serial) events = some s) :
    Forgets s ∧ ∀ event next, step maxEntries s event = some next → Kept maxEntries s event next := by
  have sound : Sound maxEntries s :=
    run_preserves_when (Sound maxEntries) (fun _ _ _ sound ok stepped => step_sound sound ok stepped) (start_sound rows pins serial) careful ran
  exact ⟨sound.forgets,fun _ _ stepped => step_kept sound stepped⟩

end Turns

def pc : Units := ascii "pc"

def nas : Units := ascii "nas"

def folder (name : String) : Units := ascii ("/" ++ name)

def cached (listing fetchedAt serial : Nat) : Cached Nat := ⟨listing,fetchedAt,serial⟩

def stored : Entries (Units × Units) (Cached Nat) where
  list := [((pc,folder "a"),cached 10 1 0),((pc,folder "b"),cached 11 2 1),((nas,folder "a"),cached 12 3 2)]
  distinct := by decide

def begin_ : State Nat := start stored {key pc (folder "a")} 3

def unpinned : List (Event Nat) :=
  [.put pc (folder "c") 13,.writes pc 4 true,.lists pc [(folder "a",1),(folder "b",2),(folder "c",4)] true,.resumes pc true,.setPinned (key pc (folder "a")) false]

def revived : List (Event Nat) := [.put pc (folder "c") 13,.evicts pc true,.clears pc,.writes pc 4 true]

theorem cache_serves_forgotten :
    (¬ ∀ s, run (step 200) begin_ revived = some s → Forgets s) ∧
    ¬ ∀ s next, run (step 1) begin_ unpinned = some s → step 1 s (.resumes pc true) = some next → Kept 1 s (.resumes pc true) next := by
  refine ⟨?_,?_⟩
  · intro always
    have late := always _ rfl pc (folder "c") _ rfl
    revert late
    decide
  · intro always
    have few := (always _ _ rfl rfl).bounded pc _ _ rfl rfl rfl
    revert few
    decide

def crowded : List (Event Nat) :=
  [.evicts nas true,.put pc (folder "c") 13,.gets pc (folder "a"),.writes pc 4 true,.lists pc [(folder "a",1),(folder "b",2),(folder "c",4)] true,.resumes pc true]

theorem cache_keeps_crowded : ∃ s next, run (step 1) begin_ crowded = some s ∧ step 1 s (.resumes pc true) = some next ∧
    Forgets s ∧ Kept 1 s (.resumes pc true) next := by
  have careful : Every (step 1) Careful begin_ crowded := by
    refine ⟨fun _ put member => (nomatch member),?_⟩
    intro next moved
    have free : Every (step 1) (fun _ event => ∀ s : State Nat, Careful s event) next crowded.tail := by
      refine every_all ?_
      simp [crowded,Careful]
    exact every_weakens (fun _ => True) (fun _ _ _ _ _ _ => trivial) (fun s _ _ always => always s) trivial free
  obtain ⟨forgets,kept⟩ := cache_keeps careful rfl
  exact ⟨_,_,rfl,rfl,forgets,kept _ _ rfl⟩

end RemoteFileExplorer.ListingCaches

import RemoteFileExplorer.SavedLogins

namespace RemoteFileExplorer.LoginPairs
open PathTexts (Text trimSpace)
open SavedLogins
open Procedures hiding orFail

structure Issuer (Token : Type) where
  key : Token → Text
  named : ∀ token, key token ≠ []

def Keyed (pins : List (Text × String)) : Prop := ∀ p ∈ pins, pinKey p.1 = p.1

def Matching (hosts : List Record) : Prop := ∀ r ∈ hosts, pinKey r.host = r.key

variable {Token : Type} {issuer : Issuer Token}

structure Paired (issuer : Issuer Token) (d : Disk Token) : Prop where
  active : ∀ t, d.token = some t → issuer.key t = pinKey d.state.host
  legacy : ∀ t, d.state.token = some t → issuer.key t = pinKey d.state.host
  parked : ∀ key t, d.parked key = some t → issuer.key t = key
  records : Matching d.hosts
  pins : Keyed d.state.pinned

section Files
variable {f : StateFile Token} {file : List Record} {pins : List (Text × String)}

theorem read_host (f : StateFile Token) : f.read.host = f.host := by
  unfold StateFile.read
  split
  · rfl
  · rfl

theorem read_token (f : StateFile Token) : f.read.token = f.token := by
  unfold StateFile.read
  split
  · rfl
  · rfl

theorem read_keyed (keyed : Keyed f.pinned) : Keyed f.read.pinned := by
  unfold StateFile.read
  split
  · exact keyed
  · intro p member
    split at member
    · cases List.mem_singleton.mp member
      exact pinKey_pinKey f.host
    · cases member

theorem session_keyed (keyed : Keyed f.pinned) (s : Saved Token) : Keyed (f.session s).pinned := by
  unfold StateFile.session StateFile.pinned at *
  split
  · intro p member
    rcases KeyedEntries.put_names (List.mem_map_of_mem member) with same | old
    · rw [same]
      exact pinKey_pinKey s.host
    · obtain ⟨q,stood,same⟩ := List.mem_map.mp old
      rw [←same]
      exact keyed q stood
  · exact keyed

theorem unpinned_keyed (keyed : Keyed f.pinned) (key : Text) : Keyed (f.unpinned key).pinned := by
  intro p member
  exact keyed p (List.mem_of_mem_filter member)

theorem upsert_matching (matching : Matching file) (host : Text) (username deviceId : String) :
    Matching (upsert file host username deviceId) := by
  intro r member
  unfold upsert at member
  split at member
  · rename_i i found
    obtain ⟨bound,named,_⟩ := List.findIdx?_eq_some_iff_getElem.mp found
    obtain ⟨j,there⟩ := List.mem_iff_getElem?.mp member
    rw [List.getElem?_modify] at there
    obtain ⟨old,stood,same⟩ := Option.map_eq_some_iff.mp there
    split at same
    · rename_i here
      subst here same
      have first : file[i] = old := by
        rw [List.getElem?_eq_getElem bound] at stood
        exact Option.some.inj stood
      rw [first] at named
      exact (pinKey_trimmed host).trans (of_decide_eq_true named).symm
    · subst same
      exact matching old (List.mem_of_getElem? stood)
  · rcases List.mem_append.mp member with old | new
    · exact matching r old
    · cases List.mem_singleton.mp new
      exact pinKey_trimmed host

theorem addPinned_matching (matching : Matching file) (keyed : Keyed pins) : Matching (addPinned file pins) := by
  induction pins generalizing file with
  | nil => exact matching
  | cons p rest ih =>
    have later : Keyed rest := fun q member => keyed q (List.mem_cons_of_mem _ member)
    unfold addPinned
    rw [List.foldl_cons]
    apply ih _ later
    split
    · exact matching
    · intro r member
      rcases List.mem_append.mp member with old | new
      · exact matching r old
      · cases List.mem_singleton.mp new
        exact keyed p (List.mem_cons_self ..)

theorem find_record (matching : Matching file) (found : find file key = some r) : pinKey r.host = key := by
  have stands := List.find?_some found
  have named : r.key = key := of_decide_eq_true stands
  rw [matching r (List.mem_of_find?_eq_some found),named]

end Files

section Operations
variable {d : Disk Token} {ok : Disk Token → (store Token).Action → Outcome → Prop}

section
variable (paired : Paired issuer d)
include paired

theorem readState_keeps :
    Keeps ok (Paired issuer) (readState : Flow Token _) d fun after f => after = d ∧ f = d.state.read :=
  keeps_act paired fun _ => ⟨paired,rfl,rfl⟩

theorem readFile_keeps :
    Keeps ok (Paired issuer) (readFile : Flow Token _) d fun after file => after = d ∧ file = d.hosts :=
  keeps_act paired fun _ => ⟨paired,rfl,rfl⟩

theorem getToken_keeps :
    Keeps ok (Paired issuer) (getToken : Flow Token _) d fun after token => after = d ∧ token = d.token :=
  keeps_act paired fun _ => ⟨paired,rfl,rfl⟩

theorem getParked_keeps (account : Text) :
    Keeps ok (Paired issuer) (getParked account) d fun after token => after = d ∧ token = d.parked account :=
  keeps_act paired fun _ => ⟨paired,rfl,rfl⟩

theorem writeFile_keeps (matching : Matching hosts) :
    Keeps ok (Paired issuer) (writeFile hosts : Flow Token _) d fun after _ => after = {d with hosts := hosts} :=
  keeps_act paired fun _ => ⟨⟨paired.active,paired.legacy,paired.parked,matching,paired.pins⟩,rfl⟩

theorem writeState_keeps {f : StateFile Token} (token : ∀ t, d.token = some t → issuer.key t = pinKey f.host)
    (keyed : Keyed f.pinned) : Keeps ok (Paired issuer) (writeState f) d fun after _ => after = {d with state := f.written} :=
  keeps_act paired fun _ => ⟨⟨token,nofun,paired.parked,paired.records,keyed⟩,rfl⟩

theorem setToken_keeps (issued : issuer.key t = pinKey d.state.host) :
    Keeps ok (Paired issuer) (setToken t) d fun after _ => after = {d with token := some t} := by
  refine keeps_act paired fun _ => ⟨⟨?_,paired.legacy,paired.parked,paired.records,paired.pins⟩,rfl⟩
  intro u same
  cases same
  exact issued

theorem deleteToken_keeps :
    Keeps ok (Paired issuer) (deleteToken : Flow Token _) d fun after _ => after = {d with token := none} :=
  keeps_act paired fun _ => ⟨⟨nofun,paired.legacy,paired.parked,paired.records,paired.pins⟩,rfl⟩

theorem setParked_keeps (issued : issuer.key t = account) :
    Keeps ok (Paired issuer) (setParked account t) d fun _ _ => True := by
  refine keeps_act paired fun _ => ⟨⟨paired.active,paired.legacy,?_,paired.records,paired.pins⟩,trivial⟩
  intro key u there
  change Function.update d.parked account (some t) key = some u at there
  rw [Function.update_apply] at there
  split at there
  · rename_i same
    cases there
    exact issued.trans same.symm
  · exact paired.parked key u there

theorem deleteParked_keeps (account : Text) :
    Keeps ok (Paired issuer) (deleteParked account) d fun after _ => after = {d with parked := Function.update d.parked account none} := by
  refine keeps_act paired fun _ => ⟨⟨paired.active,paired.legacy,?_,paired.records,paired.pins⟩,rfl⟩
  intro key u there
  change Function.update d.parked account none key = some u at there
  rw [Function.update_apply] at there
  split at there
  · cases there
  · exact paired.parked key u there

theorem listPins_keeps :
    Keeps ok (Paired issuer) (listPins : Flow Token _) d fun after pins => after = d ∧ Keyed pins := by
  refine keeps_bind (readState_keeps paired) ?_
  rintro _ _ _ ⟨rfl,rfl⟩
  exact keeps_pure paired ⟨rfl,read_keyed paired.pins⟩

end

theorem orFail_keeps {α : Type} (paired : Paired issuer d) (option : Option α) :
    Keeps ok (Paired issuer) (orFail option : Flow Token α) d fun after a => after = d ∧ option = some a := by
  cases option with
  | none => exact keeps_fail paired
  | some a => exact keeps_pure paired ⟨rfl,rfl⟩

def Fits (issuer : Issuer Token) (saved : Saved Token) : Prop := ∀ t, saved.token = some t → issuer.key t = pinKey saved.host

theorem loaded_fits (paired : Paired issuer after) (host : saved.host = after.state.host)
    (token : saved.token = after.token) : Fits issuer saved := by
  intro t there
  rw [host]
  exact paired.active t (token.symm.trans there)

end Operations

section Flows
variable [DecidableEq Token] {d : Disk Token} {ok : Disk Token → (store Token).Action → Outcome → Prop}

structure Loaded (d after : Disk Token) : Prop where
  host : after.state.host = d.state.host
  token : after.state.token = none
  hosts : after.hosts = d.hosts
  parked : after.parked = d.parked

section
variable (paired : Paired issuer d)
include paired

theorem migrate_keeps :
    Keeps ok (Paired issuer) (migrate d.state.read) d fun after _ => Loaded d after := by
  unfold migrate
  have same := read_token d.state
  split
  · rename_i absent
    rw [absent] at same
    exact keeps_pure paired ⟨rfl,same.symm,rfl,rfl⟩
  · rename_i t stored
    rw [stored] at same
    have issued := paired.legacy t same.symm
    refine keeps_bind (setToken_keeps paired issued) ?_
    rintro _ _ one rfl
    refine keeps_bind (getToken_keeps one) ?_
    rintro _ _ two ⟨rfl,rfl⟩
    rw [if_pos rfl]
    have token : ∀ u, some t = some u → issuer.key u = pinKey d.state.read.host := by
      intro u set
      cases set
      rw [read_host]
      exact issued
    refine keeps_imp (writeState_keeps two token (read_keyed paired.pins)) ?_
    rintro _ _ _ rfl
    exact ⟨read_host d.state,rfl,rfl,rfl⟩

theorem loadActive_keeps :
    Keeps ok (Paired issuer) (loadActive : Flow Token _) d fun after saved =>
      Loaded d after ∧ saved.host = after.state.host ∧ saved.token = after.token := by
  refine keeps_bind (readState_keeps paired) ?_
  rintro d _ _ ⟨rfl,rfl⟩
  refine keeps_bind (migrate_keeps paired) ?_
  intro after _ moved loaded
  refine keeps_bind (getToken_keeps moved) ?_
  rintro _ _ _ ⟨rfl,rfl⟩
  exact keeps_pure moved ⟨loaded,(read_host d.state).trans loaded.host.symm,rfl⟩

theorem savedFor_keeps (key : Text) :
    Keeps ok (Paired issuer) (savedFor key) d fun _ saved => Fits issuer saved := by
  refine keeps_bind (loadActive_keeps paired) ?_
  rintro active saved moved ⟨_,host,token⟩
  split
  · exact keeps_pure moved (loaded_fits moved host token)
  · refine keeps_bind (readFile_keeps moved) ?_
    rintro _ _ _ ⟨rfl,rfl⟩
    refine keeps_bind (orFail_keeps moved _) ?_
    rintro _ record _ ⟨rfl,found⟩
    refine keeps_bind (listPins_keeps moved) ?_
    rintro _ pins _ ⟨rfl,_⟩
    refine keeps_bind (orFail_keeps moved _) ?_
    rintro _ fingerprint _ ⟨rfl,_⟩
    refine keeps_bind (getParked_keeps moved _) ?_
    rintro _ _ _ ⟨rfl,rfl⟩
    refine keeps_pure moved ?_
    intro t there
    rw [find_record moved.records found]
    exact (moved.parked _ t there).trans (pinKey_pinKey key)

theorem park_keeps (issued : ∀ t, token = some t → issuer.key t = pinKey key) :
    Keeps ok (Paired issuer) (park key token) d fun _ _ => True := by
  cases token with
  | none => exact keeps_imp (deleteParked_keeps paired _) fun _ _ _ _ => trivial
  | some t =>
    refine keeps_bind (setParked_keeps paired (issued t rfl)) ?_
    intro after _ set _
    refine keeps_bind (getParked_keeps set _) ?_
    rintro _ stored _ ⟨rfl,_⟩
    split
    · exact keeps_pure set trivial
    · exact keeps_fail set

theorem parkBeforeReplace_keeps (incoming : Text) :
    Keeps ok (Paired issuer) (parkBeforeReplace incoming : Flow Token _) d fun _ _ => True := by
  refine keeps_bind (loadActive_keeps paired) ?_
  rintro active cur moved ⟨_,host,token⟩
  split
  · exact keeps_pure moved trivial
  · have fits : ∀ t, cur.token = some t → issuer.key t = pinKey (pinKey cur.host) := by
      intro t there
      rw [pinKey_pinKey]
      exact loaded_fits moved host token t there
    refine keeps_bind (park_keeps moved fits) ?_
    intro after _ parked _
    refine keeps_bind (readFile_keeps parked) ?_
    rintro _ _ _ ⟨rfl,rfl⟩
    exact keeps_imp (writeFile_keeps parked (upsert_matching parked.records _ _ _)) fun _ _ _ _ => trivial

end

end Flows

def Whole (d : Disk Token) (action : (store Token).Action) (outcome : Outcome) : Prop :=
  match action,outcome with
  | Action.writeSession f,.killed => d.token = none ∨ pinKey f.host = pinKey d.state.host
  | Action.restore f _,.killed => d.token = none ∨ pinKey f.host = pinKey d.state.host
  | Action.restore f _,.refused => d.token = none ∨ pinKey f.host = pinKey d.state.host
  | _,_ => True

section Changes
variable {d : Disk Token} {s : Saved Token}

section
variable (paired : Paired issuer d) (fits : Fits issuer s)
include paired fits

theorem torn_paired (near : s.token = none ∨ pinKey s.host = pinKey d.state.host) :
    Paired issuer {d with token := s.token} := by
  refine ⟨?_,paired.legacy,paired.parked,paired.records,paired.pins⟩
  intro t there
  rcases near with gone | same
  · rw [gone] at there
    cases there
  · exact (fits t there).trans same

theorem written_paired :
    Paired issuer {d with token := s.token,state := (d.state.read.session s).written} :=
  ⟨fits,nofun,paired.parked,paired.records,session_keyed (read_keyed paired.pins) s⟩

theorem replace_keeps :
    Keeps Whole (Paired issuer) (replaceToken s.token >>= fun _ => writeOrRestore (d.state.read.session s) d.token) d fun _ _ => True := by
  have torn := torn_paired paired fits
  -- killed, refused with the way back, or done, from the torn disk on
  have after : Keeps Whole (Paired issuer) (writeOrRestore (d.state.read.session s) d.token) {d with token := s.token} fun _ _ => True :=
    ⟨torn,fun _ => ⟨torn,fun near => ⟨torn near,nofun⟩,fun _ => ⟨paired,nofun⟩⟩,fun _ => ⟨written_paired paired fits,fun _ _ => trivial⟩⟩
  cases token : s.token with
  | none | some t =>
    rw [token] at after
    exact ⟨fun _ => paired,fun _ => ⟨paired,nofun⟩,fun _ => after⟩

end

variable {ok : Disk Token → (store Token).Action → Outcome → Prop}

theorem deleteEach_keeps {α : Type} (paired : Paired issuer d) (account : α → Text) (list : List α) :
    Keeps ok (Paired issuer) (each (fun a => deleteParked (account a)) list : Flow Token Unit) d fun _ _ => True :=
  keeps_each paired fun a _ _ held => keeps_imp (deleteParked_keeps held (account a)) fun _ _ _ _ => trivial

theorem dropParked_keeps (paired : Paired issuer d) (activeKey : Option Text) (pins : List (Text × String)) (file : List Record) :
    Keeps ok (Paired issuer) (dropParked activeKey pins file : Flow Token Unit) d fun _ _ => True := by
  refine keeps_bind (deleteEach_keeps paired (fun r : Record => parkedAccount r.key) _) ?_
  intro after _ dropped _
  exact deleteEach_keeps dropped (fun key : Text => parkedAccount key) _

theorem views_keeps (paired : Paired issuer d) (synced : Synced Token) (file : List Record) :
    Keeps ok (Paired issuer) (views synced file) d fun _ _ => True := by
  induction file generalizing d with
  | nil => exact keeps_pure paired trivial
  | cons r rest ih =>
    have login : Keeps ok (Paired issuer) (loginOf synced r.key) d fun after _ => after = d := by
      unfold loginOf
      split
      · exact keeps_pure paired rfl
      · exact keeps_imp (getParked_keeps paired _) fun _ _ _ same => same.1
    have shown : Keeps ok (Paired issuer) (view synced r) d fun after _ => after = d := by
      refine keeps_bind login ?_
      rintro d token _ rfl
      exact keeps_pure paired rfl
    refine keeps_bind shown ?_
    rintro d first _ rfl
    refine keeps_bind (ih paired) ?_
    intro d others held _
    exact keeps_pure held trivial

variable [DecidableEq Token]

section
variable (paired : Paired issuer d)
include paired

theorem save_keeps (fits : Fits issuer s) : Keeps Whole (Paired issuer) (save s) d fun _ _ => True := by
  refine keeps_bind (keeps_attempt (parkBeforeReplace_keeps paired s.host)) ?_
  intro d parked moved _
  split
  · exact keeps_fail moved
  · refine keeps_bind (readState_keeps moved) ?_
    rintro d _ _ ⟨rfl,rfl⟩
    refine keeps_bind (getToken_keeps moved) ?_
    rintro d _ _ ⟨rfl,rfl⟩
    exact replace_keeps moved fits

theorem sync_keeps :
    Keeps ok (Paired issuer) (sync : Flow Token _) d fun _ synced => Matching synced.file := by
  refine keeps_bind (readFile_keeps paired) ?_
  rintro d _ _ ⟨rfl,rfl⟩
  refine keeps_bind (loadActive_keeps paired) ?_
  rintro after active loaded _
  refine keeps_bind (listPins_keeps loaded) ?_
  rintro after pins _ ⟨rfl,keyed⟩
  have listed : Matching (addPinned (addActive d.hosts active) pins) := by
    apply addPinned_matching _ keyed
    unfold addActive
    split
    · exact upsert_matching paired.records _ _ _
    · exact paired.records
  have filtered : Matching ((addPinned (addActive d.hosts active) pins).filter (kept (keyOf active) pins)) :=
    fun r member => listed r (List.mem_of_mem_filter member)
  refine keeps_bind (dropParked_keeps loaded _ _ _) ?_
  intro after _ dropped _
  have wrote : Keeps ok (Paired issuer)
      (writeChanged d.hosts ((addPinned (addActive d.hosts active) pins).filter (kept (keyOf active) pins)) : Flow Token Unit) after fun _ _ => True := by
    unfold writeChanged
    split
    · exact keeps_pure dropped trivial
    · exact keeps_imp (writeFile_keeps dropped filtered) fun _ _ _ _ => trivial
  refine keeps_bind wrote ?_
  intro after _ held _
  exact keeps_pure held filtered

theorem switch_keeps (key : Text) : Keeps Whole (Paired issuer) (switch key) d fun _ _ => True := by
  refine keeps_bind (sync_keeps paired) ?_
  intro d synced moved matching
  refine keeps_bind (orFail_keeps moved _) ?_
  rintro d record _ ⟨rfl,found⟩
  split
  · exact keeps_pure moved trivial
  · refine keeps_bind (orFail_keeps moved _) ?_
    rintro d fingerprint _ ⟨rfl,_⟩
    refine keeps_bind (getParked_keeps moved _) ?_
    rintro d _ _ ⟨rfl,rfl⟩
    have fits : Fits issuer ⟨record.host,fingerprint,d.parked (parkedAccount (pinKey key)),record.username,record.deviceId⟩ := by
      intro t there
      rw [find_record matching found]
      exact (moved.parked _ t there).trans (pinKey_pinKey key)
    refine keeps_bind (save_keeps moved fits) ?_
    intro d _ saved _
    refine keeps_bind (deleteParked_keeps saved _) ?_
    intro d _ unparked _
    exact keeps_pure unparked trivial

theorem list_keeps : Keeps ok (Paired issuer) (list : Flow Token _) d fun _ _ => True := by
  refine keeps_bind (sync_keeps paired) ?_
  intro d synced moved _
  exact views_keeps moved synced synced.file

theorem rename_keeps (key name : Text) :
    Keeps ok (Paired issuer) (rename key name : Flow Token _) d fun _ _ => True := by
  refine keeps_bind (orFail_keeps paired _) ?_
  rintro d name _ ⟨rfl,_⟩
  refine keeps_bind (sync_keeps paired) ?_
  intro d synced moved matching
  dsimp only
  split
  · exact keeps_fail moved
  · refine keeps_imp (writeFile_keeps moved ?_) fun _ _ _ _ => trivial
    intro r member
    obtain ⟨j,there⟩ := List.mem_iff_getElem?.mp member
    rw [List.getElem?_modify] at there
    obtain ⟨old,stood,same⟩ := Option.map_eq_some_iff.mp there
    have before := matching old (List.mem_of_getElem? stood)
    split at same
    · subst same
      exact before
    · subst same
      exact before

end

end Changes

def Stored (d : Disk Token) (t : Token) : Prop := d.token = some t ∨ d.state.token = some t ∨ ∃ key, d.parked key = some t

section Removals
variable {d : Disk Token} {ok : Disk Token → (store Token).Action → Outcome → Prop}

section
variable (paired : Paired issuer d)
include paired

theorem paired_stored {t : Token} {key : Text} (issued : issuer.key t = key) (unparked : d.parked key = none)
    (stored : Stored d t) : d.state.host ≠ [] ∧ pinKey d.state.host = key := by
  have named : issuer.key t = pinKey d.state.host → d.state.host ≠ [] ∧ pinKey d.state.host = key := by
    intro own
    refine ⟨?_,own.symm.trans issued⟩
    intro empty
    rw [empty] at own
    exact issuer.named t own
  rcases stored with active | legacy | ⟨other,parked⟩
  · exact named (paired.active t active)
  · exact named (paired.legacy t legacy)
  · rw [←(paired.parked other t parked),issued,unparked] at parked
    cases parked

theorem writeWhen_keeps {f : StateFile Token} (token : ∀ t, d.token = some t → issuer.key t = pinKey f.host)
    (keyed : Keyed f.pinned) (changed : Bool) :
    Keeps ok (Paired issuer) (writeWhen changed f) d fun after _ => after = d ∨ after = {d with state := f.written} := by
  unfold writeWhen
  split
  · exact keeps_imp (writeState_keeps paired token keyed) fun _ _ _ wrote => .inr wrote
  · exact keeps_pure paired (.inl rfl)

theorem forgetPin_keeps (host : Text) :
    Keeps ok (Paired issuer) (forgetPin host : Flow Token _) d fun after _ => ∀ t, issuer.key t = pinKey host → ¬ Stored after t := by
  refine keeps_bind (deleteParked_keeps paired _) ?_
  rintro d _ moved rfl
  refine keeps_bind (readState_keeps moved) ?_
  rintro _ _ _ ⟨rfl,rfl⟩
  have account : parkedAccount (pinKey host) = pinKey host := pinKey_pinKey host
  have gone : Function.update d.parked (parkedAccount (pinKey host)) none (pinKey host) = none := by
    rw [account,Function.update_self]
  have keyed := unpinned_keyed (read_keyed paired.pins) (pinKey host)
  have address : (d.state.read.unpinned (pinKey host)).host = d.state.host := read_host d.state
  dsimp only
  split
  · refine keeps_bind (deleteToken_keeps moved) ?_
    rintro _ _ deleted rfl
    have cleared : Keyed (d.state.read.unpinned (pinKey host)).cleared.pinned := keyed
    refine keeps_bind (writeState_keeps deleted nofun cleared) ?_
    rintro _ _ wrote rfl
    refine keeps_pure wrote ?_
    intro t issued stored
    exact (paired_stored wrote issued gone stored).1 rfl
  · rename_i other
    rw [address] at other
    have token : ∀ t, d.token = some t → issuer.key t = pinKey (d.state.read.unpinned (pinKey host)).host := by
      rw [address]
      exact paired.active
    refine keeps_bind (writeWhen_keeps moved token keyed _) ?_
    intro after _ wrote same
    refine keeps_pure wrote ?_
    intro t issued stored
    rcases same with rfl | rfl
    · exact other (paired_stored wrote issued gone stored)
    · have active := paired_stored wrote issued gone stored
      change (d.state.read.unpinned (pinKey host)).host ≠ [] ∧ pinKey (d.state.read.unpinned (pinKey host)).host = pinKey host at active
      rw [address] at active
      exact other active

theorem signOut_keeps : Keeps ok (Paired issuer) (signOut : Flow Token _) d fun _ _ => True := by
  refine keeps_bind (readState_keeps paired) ?_
  rintro d _ _ ⟨rfl,rfl⟩
  have token : ∀ t, d.token = some t → issuer.key t = pinKey d.state.read.host := by
    rw [read_host]
    exact paired.active
  refine keeps_bind (writeWhen_keeps (f := {d.state.read with token := none}) paired token (read_keyed paired.pins) _) ?_
  intro d _ wrote _
  exact keeps_imp (deleteToken_keeps wrote) fun _ _ _ _ => trivial

end

variable [DecidableEq Token]

section
variable (paired : Paired issuer d)
include paired

theorem remove_keeps (key : Text) : Keeps ok (Paired issuer) (remove key : Flow Token _) d fun _ _ => True := by
  refine keeps_bind (sync_keeps paired) ?_
  intro d synced moved matching
  refine keeps_bind (orFail_keeps moved _) ?_
  rintro d record _ ⟨rfl,_⟩
  refine keeps_bind (deleteParked_keeps moved _) ?_
  rintro _ _ unparked _
  refine keeps_bind (forgetPin_keeps unparked _) ?_
  intro d forgot forgotten _
  have left : Matching (synced.file.filter (·.key ≠ pinKey key)) := fun r member => matching r (List.mem_of_mem_filter member)
  refine keeps_bind (writeFile_keeps forgotten left) ?_
  intro d _ wrote _
  exact keeps_pure wrote trivial

theorem forgetParkedToken_keeps (token : Token) :
    Keeps ok (Paired issuer) (forgetParkedToken token) d fun _ _ => True := by
  refine keeps_bind (readFile_keeps paired) ?_
  rintro d file _ ⟨rfl,_⟩
  refine keeps_each paired ?_
  intro r _ d held
  refine keeps_bind (getParked_keeps held _) ?_
  rintro d stored _ ⟨rfl,_⟩
  split
  · exact keeps_imp (deleteParked_keeps held _) fun _ _ _ _ => trivial
  · exact keeps_pure held trivial

theorem dropRefusedToken_keeps (token : Option Token) :
    Keeps ok (Paired issuer) (dropRefusedToken token) d fun _ _ => True := by
  cases token with
  | none => exact keeps_pure paired trivial
  | some t =>
    refine keeps_bind (loadActive_keeps paired) ?_
    intro d active moved _
    split
    · exact keeps_imp (deleteToken_keeps moved) fun _ _ _ _ => trivial
    · exact forgetParkedToken_keeps moved t

theorem resetDeviceKey_keeps : Keeps ok (Paired issuer) (resetDeviceKey : Flow Token _) d fun _ _ => True := by
  refine keeps_bind (loadActive_keeps paired) ?_
  intro d saved moved _
  split
  · exact keeps_fail moved
  · have unparked : Keeps ok (Paired issuer) (readFile >>= each fun r => deleteParked (parkedAccount r.key) : Flow Token Unit) d fun _ _ => True := by
      refine keeps_bind (readFile_keeps moved) ?_
      rintro d file _ ⟨rfl,_⟩
      exact deleteEach_keeps moved (fun r : Record => parkedAccount r.key) file
    refine keeps_bind unparked ?_
    intro d _ held _
    have deleted : Keeps ok (Paired issuer) (deleteIdentity : Flow Token Unit) d fun _ _ => True := keeps_act held fun _ => ⟨held,trivial⟩
    refine keeps_bind deleted ?_
    intro d _ held _
    exact keeps_act held fun _ => ⟨held,trivial⟩

end

end Removals

section Sessions
variable [DecidableEq Token]

inductive Call (issuer : Issuer Token) where
  | signIn (s : Saved Token) (fits : Fits issuer s)
  | switch (key : Text)
  | list
  | rename (key name : Text)
  | remove (key : Text)
  | forgetPin (host : Text)
  | dropRefusedToken (token : Option Token)
  | signOut
  | resetDeviceKey

def body : Call issuer → Flow Token Unit
  | .signIn s _ => save s
  | .switch key => do let _ ← switch key
  | .list => do let _ ← list
  | .rename key name => rename key name
  | .remove key => do let _ ← remove key
  | .forgetPin host => do let _ ← forgetPin host
  | .dropRefusedToken token => dropRefusedToken token
  | .signOut => signOut
  | .resetDeviceKey => resetDeviceKey

def Forgotten (c : Call issuer) (d : Disk Token) (result : Option Unit) : Prop :=
  match c,result with
  | .forgetPin host,some _ => ∀ t, issuer.key t = pinKey host → ¬ Stored d t
  | _,_ => True

theorem body_keeps (paired : Paired issuer d) (c : Call issuer) :
    Keeps Whole (Paired issuer) (body c) d fun d result => Forgotten c d (some result) := by
  have dropped : ∀ {α : Type} {p : Flow Token α} {good : Disk Token → α → Prop}, Keeps Whole (Paired issuer) p d good →
      Keeps Whole (Paired issuer) (do let _ ← p : Flow Token Unit) d fun d _ => ∃ a, good d a := by
    intro α p good kept
    refine keeps_bind kept ?_
    intro d a held result
    exact keeps_pure held ⟨a,result⟩
  cases c with
  | signIn s fits => exact keeps_imp (save_keeps paired fits) fun _ _ _ _ => trivial
  | switch key => exact keeps_imp (dropped (switch_keeps paired key)) fun _ _ _ _ => trivial
  | list => exact keeps_imp (dropped (list_keeps paired)) fun _ _ _ _ => trivial
  | rename key name => exact keeps_imp (rename_keeps paired key name) fun _ _ _ _ => trivial
  | remove key => exact keeps_imp (dropped (remove_keeps paired key)) fun _ _ _ _ => trivial
  | forgetPin host =>
    refine keeps_imp (dropped (forgetPin_keeps paired host)) ?_
    rintro d _ _ ⟨_,forgotten⟩
    exact forgotten
  | dropRefusedToken token => exact keeps_imp (dropRefusedToken_keeps paired token) fun _ _ _ _ => trivial
  | signOut => exact keeps_imp (signOut_keeps paired) fun _ _ _ _ => trivial
  | resetDeviceKey => exact keeps_imp (resetDeviceKey_keeps paired) fun _ _ _ _ => trivial

abbrev Session (issuer : Issuer Token) := State (store Token) (Call issuer) Unit

def Sound (issuer : Issuer Token) (d : Disk Token) : Prop :=
  (∀ saved after, Ran loadActive d (some saved) after → Fits issuer saved) ∧
  (∀ key saved after, Ran (savedFor key) d (some saved) after → Fits issuer saved) ∧
  ∀ key t, d.parked key = some t → issuer.key t = key

theorem paired_sound (paired : Paired issuer d) : Sound issuer d := by
  refine ⟨?_,?_,paired.parked⟩
  · intro saved after ran
    obtain ⟨held,loaded⟩ := meets_ran (loadActive_keeps paired) ran
    obtain ⟨_,host,token⟩ := loaded saved rfl
    exact loaded_fits held host token
  · intro key saved after ran
    exact (meets_ran (savedFor_keeps paired key) ran).2 saved rfl

theorem token_address_pairs {d : Disk Token} {events : List (Event (Call issuer))} {last : Session issuer} (start : Paired issuer d)
    (whole : Runs.Every (step body) (Careful Whole) (⟨d,none⟩ : Session issuer) events)
    (ran : Runs.run (step body) (⟨d,none⟩ : Session issuer) events = some last) (ended : last.ended = true) :
    Sound issuer last.disk ∧
      ∀ host, last.running = some (.forgetPin host,.ends (some ())) → ∀ t, issuer.key t = pinKey host → ¬ Stored last.disk t := by
  have sound : ∀ (c : Call issuer) d, Paired issuer d → Meets Whole (Paired issuer) (body c) d fun d result => Paired issuer d ∧ Forgotten c d result := by
    intro c d paired
    refine meets_imp ?_ (body_keeps paired c)
    intro d result both
    refine ⟨both.1,?_⟩
    cases result with
    | none => cases c <;> trivial
    | some a => exact both.2 a rfl
  have rests := run_rests sound rfl start whole ran
  refine ⟨paired_sound (rests_ended rests ended),?_⟩
  intro host running
  rw [Rests,running] at rests
  exact rests.2

end Sessions

instance decidableWhole [DecidableEq Token] (d : Disk Token) (action : (store Token).Action) (outcome : Outcome) :
    Decidable (Whole d action outcome) := by
  unfold Whole
  split
  all_goals infer_instance

instance decidableCareful [DecidableEq Token] (s : Session issuer) (event : Event (Call issuer)) : Decidable (Careful Whole s event) :=
  match event with
  | .call _ => .isTrue trivial
  | .goes outcome =>
    match s with
    | ⟨_,none⟩ => .isTrue trivial
    | ⟨_,some (_,.ends _)⟩ => .isTrue trivial
    | ⟨d,some (_,.calls action _)⟩ => decidableWhole d action outcome

def parity : Issuer Nat where
  key token := if token % 2 = 0 then ['a'] else ['b']
  named token := by
    split
    · exact List.cons_ne_nil _ _
    · exact List.cons_ne_nil _ _

def fresh : Disk Nat := ⟨⟨[],"","","",none,some []⟩,[],none,fun _ => none⟩

theorem fresh_paired : Paired parity fresh where
  active := nofun
  legacy := nofun
  parked := nofun
  records := nofun
  pins := nofun

def onA : Saved Nat := ⟨['a'],"A",some 0,"","1"⟩
def onB : Saved Nat := ⟨['b'],"B",some 1,"","1"⟩

theorem onA_fits : Fits parity onA := by
  intro t same
  cases same
  rfl

theorem onB_fits : Fits parity onB := by
  intro t same
  cases same
  rfl

def done (n : Nat) : List (Event (Call parity)) := List.replicate n (.goes .done)

def calmSession : List (Event (Call parity)) :=
  .call (.signIn onA onA_fits) :: done 6 ++ .call (.signIn onB onB_fits) :: done 10 ++
    .call (.switch ['A',' ']) :: done 2 ++ .goes .killed :: .call (.forgetPin ['A']) :: done 3

theorem calm_session_paired : ∃ last, Runs.run (step body) (⟨fresh,none⟩ : Session parity) calmSession = some last ∧ last.ended = true ∧
    last.disk.token = some 1 ∧ last.disk.parked ['a'] = none ∧ Sound parity last.disk ∧
      ∀ host, last.running = some (.forgetPin host,.ends (some ())) → ∀ t, parity.key t = pinKey host → ¬ Stored last.disk t := by
  have whole : Runs.Every (step body) (Careful Whole) (⟨fresh,none⟩ : Session parity) calmSession := by decide +kernel
  exact ⟨_,rfl,rfl,rfl,rfl,token_address_pairs fresh_paired whole rfl rfl⟩

def killedSession : List (Event (Call parity)) :=
  .call (.signIn onA onA_fits) :: done 6 ++ .call (.signIn onB onB_fits) :: done 9 ++ [.goes .killed]

theorem killed_save_mixes_hosts : ∃ last, Runs.run (step body) (⟨fresh,none⟩ : Session parity) killedSession = some last ∧
    last.ended = true ∧ last.disk.state.host = ['a'] ∧ last.disk.token = some 1 ∧ ¬ Sound parity last.disk := by
  refine ⟨_,rfl,rfl,rfl,rfl,?_⟩
  intro sound
  have mixed := sound.1 ⟨['a'],"A",some 1,"","1"⟩ _ (.done _ _ _ _ _ (.done _ _ _ _ _ (.ends _ _))) 1 rfl
  revert mixed
  decide

end RemoteFileExplorer.LoginPairs

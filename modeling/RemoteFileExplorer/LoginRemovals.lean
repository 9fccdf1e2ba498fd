import RemoteFileExplorer.LoginPairs

namespace RemoteFileExplorer.LoginRemovals
open PathTexts (Text)
open SavedLogins
open Procedures hiding orFail
open LoginPairs (Stored Keyed read_host read_token read_keyed session_keyed)

variable {Token : Type}

section Model
variable [DecidableEq Token]

-- The second part of `sign_out_and_revoke`: a session that cannot be loaded counts
-- as the one to be signed out.
def clearLogin : Option Token → Flow Token Unit
  | none => signOut
  | some token => do
    let loaded ← (loadSaved none).attempt
    if loaded.elim true fun saved => saved.token = some token then signOut else forgetParkedToken token

-- How far a sign-out is. `failed` could not load its session; the others know it.
inductive Stage (Token : Type) where
  | failed
  | asked (saved : Saved Token)
  | answered (saved : Saved Token) (revoked : Bool)
  | returned (revoked : Bool)
  | gaveUp

-- The login that was active when the sign-out began; nothing reads it.
structure SignOut (Token : Type) where
  login : Option Token
  stage : Stage Token

structure State (Token : Type) where
  disk : Disk Token
  signOuts : List (SignOut Token)

-- Each part of a call holds the lock of the saved hosts and the turn at the
-- keystore, so the parts of several calls come one after another.
inductive Event (Token : Type) where
  | signIn (s : Saved Token) (outcomes : List Outcome)
  | switch (key : Text) (outcomes : List Outcome)
  | dropRefused (token : Token) (outcomes : List Outcome)
  | begin (outcomes : List Outcome)
  | readFallback (i : Nat)
  | answer (i : Nat) (revoked : Bool)
  | clear (i : Nat) (outcomes : List Outcome)

def active (d : Disk Token) : Option Token := d.state.token.or d.token

def State.goes (s : State Token) (i : Nat) (stage : Stage Token) : State Token :=
  {s with signOuts := s.signOuts.modify i fun call => {call with stage := stage}}

def step (s : State Token) : Event Token → Option (State Token)
  | .signIn session outcomes => do
    let (disk,_) ← execute (save session) s.disk outcomes
    return {s with disk := disk}
  | .switch key outcomes => do
    let (disk,_) ← execute (switch key) s.disk outcomes
    return {s with disk := disk}
  | .dropRefused token outcomes => do
    let (disk,_) ← execute (dropRefusedToken (some token)) s.disk outcomes
    return {s with disk := disk}
  | .begin outcomes => do
    let (disk,loaded) ← execute (loadSaved none) s.disk outcomes
    return ⟨disk,s.signOuts ++ [⟨active s.disk,loaded.elim .failed .asked⟩]⟩
  | .readFallback i => do
    let call ← s.signOuts[i]?
    match call.stage with
    | .failed => some (s.goes i (.asked (s.disk.state.read.intoSaved s.disk.state.read.token)))
    | _ => none
  | .answer i revoked => do
    let call ← s.signOuts[i]?
    match call.stage with
    | .asked saved =>
      -- the agent is asked only about a device and a login that are known
      if revoked = true ∧ ¬ (saved.token.isSome = true ∧ saved.host ≠ [] ∧ saved.deviceId ≠ "") then none
      else some (s.goes i (.answered saved revoked))
    | _ => none
  | .clear i outcomes => do
    let call ← s.signOuts[i]?
    match call.stage with
    | .answered saved revoked => do
      let (disk,result) ← execute (clearLogin saved.token) s.disk outcomes
      return {s with disk := disk}.goes i (result.elim .gaveUp fun _ => .returned revoked)
    | _ => none

end Model

-- Only reads of the keystore are refused.
def Reads (_ : Disk Token) (action : (store Token).Action) (outcome : Outcome) : Prop :=
  match action,outcome with
  | Action.getToken,.refused => True
  | Action.getParked _,.refused => True
  | _,.done => True
  | _,_ => False

def keys (hosts : List Record) : List Text := hosts.map (·.key)

def Active (d : Disk Token) (t : Token) : Prop := d.token = some t ∨ d.state.token = some t

def Spares (login : Option Token) (d after : Disk Token) : Prop :=
  ∀ t, some t ≠ login → (Active d t → Active after t) ∧ ∀ key, d.parked key = some t → after.parked key = some t

section Conditions
variable [DecidableEq Token]

-- Sign-ins are fresh, and a sign-out begins with a login.
def Possible (s : State Token) : Event Token → Prop
  | .signIn session outcomes => Along Reads (save session) s.disk outcomes ∧ ∀ t, session.token = some t → ¬ Stored s.disk t
  | .switch key outcomes => Along Reads (switch key) s.disk outcomes
  | .dropRefused token outcomes => Along Reads (dropRefusedToken (some token)) s.disk outcomes
  | .begin outcomes => Along Reads (loadSaved none) s.disk outcomes ∧ (active s.disk).isSome = true
  | .readFallback _ => True
  | .answer _ _ => True
  | .clear i outcomes => ∀ call saved revoked, s.signOuts[i]? = some call → call.stage = .answered saved revoked →
      Along Reads (clearLogin saved.token) s.disk outcomes

def Twice (d : Disk Token) : Prop := ∃ t key, d.token = some t ∧ d.parked key = some t

-- While the login that is replaced stands in both slots, a read is refused only
-- where the save goes on and the parked one is in the list of hosts.
def Parks (incoming : Option Token) (d : Disk Token) (action : (store Token).Action) (outcome : Outcome) : Prop :=
  outcome = .refused → Twice d →
    match action with
    | Action.getParked account => account ∈ keys d.hosts ∧ incoming.isSome = true
    | _ => False

def Own (login : Option Token) (d : Disk Token) : Prop := ∀ t, Active d t → some t = login

-- A session that cannot be loaded, or was not known from the start, is the one to
-- be signed out.
def Clears (login : Option Token) (revoked : Bool) (d : Disk Token) (action : (store Token).Action) (outcome : Outcome) : Prop :=
  outcome = .refused →
    match action with
    | Action.getToken => Own login d ∧ (revoked = true → d.token = login ∨ ∀ t key, login = some t → d.parked key ≠ some t)
    | _ => True

def Careful (s : State Token) : Event Token → Prop
  | .signIn session outcomes => Along (Parks session.token) (save session) s.disk outcomes
  | .switch key outcomes => Along (Parks (s.disk.parked (pinKey key))) (switch key) s.disk outcomes
  | .clear i outcomes => ∀ call saved revoked, s.signOuts[i]? = some call → call.stage = .answered saved revoked →
      (saved.token = none → Own call.login s.disk) ∧
      Along (Clears call.login revoked) (clearLogin saved.token) s.disk outcomes
  | _ => True

end Conditions

structure Loose (d : Disk Token) : Prop where
  recorded : ∀ key t, d.parked key = some t → key ∈ keys d.hosts
  unique : ∀ one other t, d.parked one = some t → d.parked other = some t → one = other
  legacy : ∀ t, d.state.token = some t → d.token = none ∨ d.token = some t
  older : ∀ t key, d.state.token = some t → d.parked key ≠ some t
  normal : ∀ key ∈ keys d.hosts, pinKey key = key
  pins : Keyed d.state.pinned

structure Settled (d : Disk Token) : Prop extends Loose d where
  once : ∀ t key, d.token = some t → d.parked key ≠ some t

theorem settled_active {d : Disk Token} {t : Token} (settled : Settled d) (key : Text) (now : Active d t) : d.parked key ≠ some t := by
  rcases now with slot | older
  · exact settled.once t key slot
  · exact settled.older t key older

theorem fewer_settled {d after : Disk Token} (settled : Settled d) (state : after.state = d.state) (token : after.token = d.token)
    (fewer : ∀ key t, after.parked key = some t → d.parked key = some t) (recorded : ∀ key t, after.parked key = some t → key ∈ keys after.hosts)
    (normal : ∀ key ∈ keys after.hosts, pinKey key = key) : Settled after := by
  refine ⟨⟨recorded,fun one other t first second => settled.unique one other t (fewer one t first) (fewer other t second),?_,?_,normal,?_⟩,?_⟩
  · rw [state,token]
    exact settled.legacy
  · rw [state]
    exact fun t key now there => settled.older t key now (fewer key t there)
  · rw [state]
    exact settled.pins
  · rw [token]
    exact fun t key now there => settled.once t key now (fewer key t there)

theorem emptied {parked : Text → Option Token} {account key : Text} {t : Token} (there : Function.update parked account none key = some t) :
    parked key = some t ∧ key ≠ account := by
  rw [Function.update_apply] at there
  split at there
  · cases there
  · rename_i differs
    exact ⟨there,differs⟩

theorem reads_killed {d : Disk Token} {action : (store Token).Action} : ¬ Reads d action .killed := by
  cases action <;> exact id

section Requests
variable {ok : Disk Token → (store Token).Action → Outcome → Prop} (reads : ∀ d action outcome, ok d action outcome → Reads d action outcome)
  {stop : Disk Token → Prop} {d : Disk Token} {action : Action Token}
include reads

theorem request_then {β : Type} {k : action.Reply → Flow Token β} {post : Disk Token → Option β → Prop}
    (refused : ok d action .refused → post d none)
    (done : Meets ok stop (k (perform action d).2) (perform action d).1 post) : Meets ok stop (request action >>= k) d post :=
  ⟨fun killed => (reads_killed (reads _ _ _ killed)).elim,refused,fun _ => done⟩

theorem request_last {post : Disk Token → Option action.Reply → Prop} (refused : ok d action .refused → post d none)
    (done : post (perform action d).1 (some (perform action d).2)) : Meets ok stop (request action) d post :=
  ⟨fun killed => (reads_killed (reads _ _ _ killed)).elim,refused,fun _ => done⟩

theorem sure_then {β : Type} {k : action.Reply → Flow Token β} {post : Disk Token → Option β → Prop}
    (done : Meets ok stop (k (perform action d).2) (perform action d).1 post) (sure : ¬ Reads d action .refused) :
    Meets ok stop (request action >>= k) d post :=
  request_then reads (fun refused => absurd (reads _ _ _ refused) sure) done

theorem sure_last {post : Disk Token → Option action.Reply → Prop} (done : post (perform action d).1 (some (perform action d).2))
    (sure : ¬ Reads d action .refused) : Meets ok stop (request action) d post :=
  request_last reads (fun refused => absurd (reads _ _ _ refused) sure) done

end Requests

section Loads
variable {ok : Disk Token → (store Token).Action → Outcome → Prop}
  (reads : ∀ d action outcome, ok d action outcome → Reads d action outcome) {stop : Disk Token → Prop} {d : Disk Token}

structure Same (d after : Disk Token) : Prop where
  hosts : after.hosts = d.hosts
  parked : after.parked = d.parked
  active : ∀ t, Active after t ↔ Active d t
  legacy : ∀ t, after.state.token = some t → d.state.token = some t
  pins : Keyed d.state.pinned → Keyed after.state.pinned

structure LoadedAs (d after : Disk Token) (saved : Saved Token) : Prop where
  legacy : after.state.token = none
  token : saved.token = after.token
  active : saved.token = active d
  host : saved.host = after.state.host

theorem same_settled {after : Disk Token} (settled : Settled d) (same : Same d after)
    (legacy : ∀ t, after.state.token = some t → after.token = none ∨ after.token = some t) : Settled after where
  recorded := by
    rw [same.parked,same.hosts]
    exact settled.recorded
  unique := by
    rw [same.parked]
    exact settled.unique
  legacy := legacy
  older := by
    intro t key there
    rw [same.parked]
    exact settled.older t key (same.legacy t there)
  normal := by
    rw [same.hosts]
    exact settled.normal
  pins := same.pins settled.pins
  once := by
    intro t key there
    rw [same.parked]
    exact settled_active settled key ((same.active t).mp (.inl there))

variable [DecidableEq Token]
include reads

theorem migrate_meets (settled : Settled d) : Meets ok stop (migrate d.state.read) d fun after result =>
    Same d after ∧ Settled after ∧ (result = none → ok after Action.getToken .refused) ∧
      ∀ u, result = some u → after.state.token = none ∧ after.token = active d ∧ after.state.host = d.state.host := by
  unfold migrate
  cases token : d.state.read.token with
  | none =>
    have absent : d.state.token = none := (read_token d.state).symm.trans token
    refine ⟨⟨rfl,rfl,fun _ => Iff.rfl,fun _ => id,id⟩,settled,nofun,?_⟩
    intro _ _
    exact ⟨absent,by rw [active,absent,Option.none_or],rfl⟩
  | some t =>
    have stored : d.state.token = some t := (read_token d.state).symm.trans token
    have moved : Same d {d with token := some t} := by
      refine ⟨rfl,rfl,?_,fun _ => id,id⟩
      intro u
      rcases settled.legacy t stored with empty | kept
      · simp [Active,stored,empty]
      · simp [Active,kept]
    have kept : Settled {d with token := some t} := by
      apply same_settled settled moved
      intro u other
      cases stored.symm.trans other
      exact .inr rfl
    have cleared : Same d {d with token := some t,state := ({d.state.read with token := none} : StateFile Token).written} := by
      refine ⟨rfl,rfl,?_,nofun,read_keyed⟩
      intro u
      rw [←moved.active u]
      simp [Active,StateFile.written,stored]
    refine sure_then reads ?_ id
    refine request_then reads (fun refused => ⟨moved,kept,fun _ => refused,nofun⟩) ?_
    change Meets ok stop (if some t = some t then writeState {d.state.read with token := none} else fail) {d with token := some t} _
    rw [if_pos rfl]
    refine sure_last reads ⟨cleared,same_settled settled cleared nofun,nofun,?_⟩ id
    intro _ _
    exact ⟨rfl,by rw [active,stored,Option.some_or]; rfl,read_host d.state⟩

theorem loadActive_meets (settled : Settled d) : Meets ok stop (loadActive : Flow Token _) d fun after loaded =>
    Same d after ∧ Settled after ∧ (loaded = none → ok after Action.getToken .refused) ∧ ∀ saved, loaded = some saved → LoadedAs d after saved := by
  refine sure_then reads ?_ id
  apply meets_bind
  refine meets_imp ?_ (migrate_meets reads settled)
  intro after result both
  obtain ⟨same,kept,refused,moved⟩ := both
  cases result with
  | none => exact ⟨same,kept,fun _ => refused rfl,nofun⟩
  | some u =>
    obtain ⟨legacy,token,host⟩ := moved u rfl
    refine request_then reads (fun refused => ⟨same,kept,fun _ => refused,nofun⟩) ⟨same,kept,nofun,?_⟩
    intro saved loaded
    cases loaded
    exact ⟨legacy,rfl,token,(read_host d.state).trans host.symm⟩

end Loads

section Removals
variable {ok : Disk Token → (store Token).Action → Outcome → Prop}
  (reads : ∀ d action outcome, ok d action outcome → Reads d action outcome) {stop : Disk Token → Prop} {d after : Disk Token}
  {login : Option Token}

theorem same_spares (same : Same d after) (login : Option Token) : Spares login d after := by
  intro t _
  refine ⟨(same.active t).mpr,?_⟩
  rw [same.parked]
  exact fun _ => id

theorem spares_trans {middle : Disk Token} (first : Spares login d middle) (second : Spares login middle after) : Spares login d after := by
  intro t other
  obtain ⟨activeOne,parkedOne⟩ := first t other
  obtain ⟨activeTwo,parkedTwo⟩ := second t other
  exact ⟨activeTwo ∘ activeOne,fun key => parkedTwo key ∘ parkedOne key⟩

structure SignedOut (d after : Disk Token) : Prop where
  hosts : after.hosts = d.hosts
  parked : after.parked = d.parked
  token : after.token = none
  legacy : after.state.token = none
  pins : Keyed d.state.pinned → Keyed after.state.pinned

theorem signedOut_settled (settled : Settled d) (out : SignedOut d after) : Settled after where
  recorded := by
    rw [out.parked,out.hosts]
    exact settled.recorded
  unique := by
    rw [out.parked]
    exact settled.unique
  legacy := fun _ _ => .inl out.token
  older := by
    intro t key there
    rw [out.legacy] at there
    cases there
  normal := by
    rw [out.hosts]
    exact settled.normal
  pins := out.pins settled.pins
  once := by
    intro t key there
    rw [out.token] at there
    cases there

theorem signedOut_spares (own : Own login d) (out : SignedOut d after) : Spares login d after := by
  intro t other
  refine ⟨fun now => absurd (own t now) other,?_⟩
  rw [out.parked]
  exact fun _ => id

include reads in
theorem signOut_meets (d : Disk Token) : Meets ok stop (signOut : Flow Token _) d fun after result => result = some () ∧ SignedOut d after := by
  refine sure_then reads ?_ id
  unfold writeWhen
  have token := read_token d.state
  change Meets ok stop ((if d.state.read.token.isSome = true then writeState {d.state.read with token := none} else pure ()) >>= fun _ =>
    deleteToken) d _
  split
  · refine sure_then reads ?_ id
    exact sure_last reads ⟨rfl,rfl,rfl,rfl,rfl,read_keyed⟩ id
  · rename_i absent
    have gone : d.state.token = none := by
      rw [←token]
      simpa using absent
    exact sure_last reads ⟨rfl,rfl,rfl,rfl,gone,id⟩ id

structure Dropping (gone : Token) (d after : Disk Token) : Prop where
  state : after.state = d.state
  token : after.token = d.token
  hosts : after.hosts = d.hosts
  others : ∀ key t, t ≠ gone → d.parked key = some t → after.parked key = some t
  fewer : ∀ key t, after.parked key = some t → d.parked key = some t

theorem dropping_refl (token : Token) (d : Disk Token) : Dropping token d d := ⟨rfl,rfl,rfl,fun _ _ _ => id,fun _ _ => id⟩

theorem dropping_delete {token : Token} {account : Text} (dropping : Dropping token d after) (stored : after.parked account = some token) :
    Dropping token d {after with parked := Function.update after.parked account none} where
  state := dropping.state
  token := dropping.token
  hosts := dropping.hosts
  others := by
    intro key t other there
    have before := dropping.others key t other there
    change Function.update after.parked account none key = some t
    rw [Function.update_apply]
    split
    · rename_i same
      rw [same,stored] at before
      exact absurd (Option.some.inj before).symm other
    · exact before
  fewer := fun key t there => dropping.fewer key t (emptied there).1

theorem dropping_settled {token : Token} (settled : Settled d) (dropping : Dropping token d after) : Settled after := by
  refine fewer_settled settled dropping.state dropping.token dropping.fewer ?_ ?_
  · rw [dropping.hosts]
    exact fun key t there => settled.recorded key t (dropping.fewer key t there)
  · rw [dropping.hosts]
    exact settled.normal

theorem dropping_spares {token : Token} (dropping : Dropping token d after) : Spares (some token) d after := by
  intro t other
  refine ⟨?_,fun key => dropping.others key t fun same => other (congrArg some same)⟩
  rw [Active,Active,dropping.token,dropping.state]
  exact id

variable [DecidableEq Token]
include reads

theorem dropEach_meets {token : Token} (file : List Record) (dropping : Dropping token d after) :
    Meets ok stop (each (fun r => do
      let stored ← getParked (parkedAccount r.key)
      if stored = some token then deleteParked (parkedAccount r.key) else pure ()) file : Flow Token Unit) after fun last result =>
        Dropping token d last ∧ (∀ key t, last.parked key = some t → after.parked key = some t) ∧
          ∀ u, result = some u → ∀ r ∈ file, last.parked (parkedAccount r.key) ≠ some token := by
  induction file generalizing after with
  | nil => exact ⟨dropping,fun _ _ => id,fun _ _ _ member => absurd member List.not_mem_nil⟩
  | cons r rest ih =>
    apply meets_bind
    refine request_then reads (fun _ => ⟨dropping,fun _ _ => id,nofun⟩) ?_
    split
    · rename_i stored
      refine sure_last reads ?_ id
      have next := dropping_delete dropping stored
      refine meets_imp ?_ (ih next)
      rintro last result ⟨dropped,fewer,clear⟩
      refine ⟨dropped,fun key t there => (emptied (fewer key t there)).1,?_⟩
      intro u ended other member
      rcases List.mem_cons.mp member with rfl | later
      · exact fun there => (emptied (fewer _ token there)).2 rfl
      · exact clear u ended other later
    · rename_i absent
      change Meets ok stop (each _ rest) after _
      refine meets_imp ?_ (ih dropping)
      rintro last result ⟨dropped,fewer,clear⟩
      refine ⟨dropped,fewer,?_⟩
      intro u ended other member
      rcases List.mem_cons.mp member with rfl | later
      · exact fun there => absent (fewer _ token there)
      · exact clear u ended other later

theorem forgetParkedToken_meets (settled : Settled d) (token : Token) : Meets ok stop (forgetParkedToken token) d fun after result =>
    Dropping token d after ∧ ∀ u, result = some u → ∀ key, after.parked key ≠ some token := by
  refine sure_then reads ?_ id
  refine meets_imp ?_ (dropEach_meets reads d.hosts (dropping_refl token d))
  rintro after result ⟨dropping,fewer,clear⟩
  refine ⟨dropping,?_⟩
  intro u ended key there
  have listed := settled.recorded key token (fewer key token there)
  obtain ⟨r,member,rfl⟩ := List.mem_map.mp listed
  apply clear u ended r member
  rw [parkedAccount,settled.normal _ listed]
  exact there

theorem dropRefusedToken_meets (settled : Settled d) (token : Token) : Meets ok stop (dropRefusedToken (some token)) d fun after _ =>
    Settled after ∧ Spares (some token) d after := by
  apply meets_bind
  refine meets_imp ?_ (loadActive_meets reads settled)
  rintro middle loaded ⟨same,kept,_,known⟩
  cases loaded with
  | none => exact ⟨kept,same_spares same _⟩
  | some saved =>
    have loadedAs := known saved rfl
    have before := same_spares same (some token)
    change Meets ok stop (if saved.token = some token then deleteToken else forgetParkedToken token) middle _
    split
    · rename_i equal
      have out : SignedOut middle {middle with token := none} := ⟨rfl,rfl,rfl,loadedAs.legacy,id⟩
      have own : Own (some token) middle := by
        rintro t (there | there)
        · rw [←loadedAs.token,equal] at there
          exact there.symm
        · rw [loadedAs.legacy] at there
          cases there
      exact sure_last reads ⟨signedOut_settled kept out,spares_trans before (signedOut_spares own out)⟩ id
    · refine meets_imp ?_ (forgetParkedToken_meets reads kept token)
      rintro after result ⟨dropping,_⟩
      exact ⟨dropping_settled kept dropping,spares_trans before (dropping_spares dropping)⟩

omit reads

theorem clearLogin_meets {revoked : Bool} {token : Option Token} (settled : Settled d) (known : ∀ t, token = some t → login = some t)
    (unknown : token = none → Own login d ∧ revoked = false) :
    Meets (fun d action outcome => Reads d action outcome ∧ Clears login revoked d action outcome) stop (clearLogin token) d fun after result =>
      Settled after ∧ Spares login d after ∧ ∀ u, result = some u → revoked = true → ∀ t, login = some t → ¬ Stored after t := by
  have reads : ∀ d action outcome, Reads d action outcome ∧ Clears login revoked d action outcome → Reads d action outcome :=
    fun _ _ _ => And.left
  cases token with
  | none =>
    obtain ⟨own,untold⟩ := unknown rfl
    refine meets_imp ?_ (signOut_meets reads d)
    rintro after result ⟨_,out⟩
    refine ⟨signedOut_settled settled out,signedOut_spares own out,?_⟩
    intro _ _ told
    rw [untold] at told
    cases told
  | some t =>
    cases known t rfl
    have gone : ∀ {middle after}, SignedOut middle after → (∀ key, middle.parked key ≠ some t) → ∀ u, some t = some u → ¬ Stored after u := by
      rintro middle after out unparked u ⟨⟩ (there | there | ⟨key,there⟩)
      · rw [out.token] at there
        cases there
      · rw [out.legacy] at there
        cases there
      · rw [out.parked] at there
        exact unparked key there
    apply meets_bind
    apply meets_attempt
    refine meets_imp ?_ (loadActive_meets reads settled)
    rintro middle loaded ⟨same,kept,refused,loadedAs⟩
    have before := same_spares same (some t)
    cases loaded with
    | none =>
      obtain ⟨own,told⟩ := (refused rfl).2 rfl
      refine meets_imp ?_ (signOut_meets reads middle)
      rintro after result ⟨_,out⟩
      refine ⟨signedOut_settled kept out,spares_trans before (signedOut_spares own out),?_⟩
      intro _ _ revoked
      apply gone out
      intro key
      rcases told revoked with here | unparked
      · exact kept.once t key here
      · exact unparked t key rfl
    | some saved =>
      have as := loadedAs saved rfl
      change Meets _ stop (if decide (saved.token = some t) = true then signOut else forgetParkedToken t) middle _
      split
      · rename_i equal
        have here : middle.token = some t := as.token.symm.trans (of_decide_eq_true equal)
        have own : Own (some t) middle := by
          rintro u (there | there)
          · exact there.symm.trans here
          · rw [as.legacy] at there
            cases there
        refine meets_imp ?_ (signOut_meets reads middle)
        rintro after result ⟨_,out⟩
        refine ⟨signedOut_settled kept out,spares_trans before (signedOut_spares own out),?_⟩
        intro _ _ _
        exact gone out fun key => kept.once t key here
      · rename_i differs
        refine meets_imp ?_ (forgetParkedToken_meets reads kept t)
        rintro after result ⟨dropping,clear⟩
        refine ⟨dropping_settled kept dropping,spares_trans before (dropping_spares dropping),?_⟩
        rintro u ended _ _ ⟨⟩ (there | there | ⟨key,there⟩)
        · rw [dropping.token,←as.token] at there
          exact differs (decide_eq_true there)
        · rw [dropping.state,as.legacy] at there
          cases there
        · exact clear u ended key there

end Removals

section Keys
variable {file : List Record} {key : Text}

theorem upsert_keys (host : Text) (username deviceId : String) :
    key ∈ keys (upsert file host username deviceId) ↔ key ∈ keys file ∨ key = pinKey host := by
  unfold upsert keys
  split
  · rename_i i found
    obtain ⟨bound,named,_⟩ := List.findIdx?_eq_some_iff_getElem.mp found
    have same : (file.modify i fun r => {r with host := PathTexts.trimSpace host,username := username,deviceId := deviceId}).map (·.key) =
        file.map (·.key) := by
      apply List.ext_getElem?
      intro j
      rw [List.getElem?_map,List.getElem?_map,List.getElem?_modify]
      cases file[j]? with
      | none => rfl
      | some r =>
        split <;> rfl
    rw [same]
    have there : pinKey host ∈ file.map (·.key) := by
      rw [←of_decide_eq_true named]
      exact List.mem_map_of_mem (List.getElem_mem bound)
    constructor
    · exact .inl
    · rintro (old | rfl)
      · exact old
      · exact there
  · simp

theorem addPinned_keys {pins : List (Text × String)} : key ∈ keys (addPinned file pins) ↔ key ∈ keys file ∨ key ∈ pins.map (·.1) := by
  induction pins generalizing file with
  | nil => simp [addPinned]
  | cons p rest ih =>
    have next := @ih (if file.any (·.key = p.1) then file else file ++ [⟨p.1,p.1,p.1,"",""⟩])
    refine next.trans ?_
    rw [List.map_cons,List.mem_cons]
    split
    · rename_i listed
      obtain ⟨r,member,same⟩ := List.any_eq_true.mp listed
      have there : p.1 ∈ keys file := by
        rw [←of_decide_eq_true same]
        exact List.mem_map_of_mem member
      constructor
      · rintro (old | later)
        · exact .inl old
        · exact .inr (.inr later)
      · rintro (old | rfl | later)
        · exact .inl old
        · exact .inl there
        · exact .inr later
    · simp only [keys,List.map_append,List.map_cons,List.map_nil,List.mem_append,List.mem_singleton]
      tauto

end Keys

section Saves
variable {incoming : Option Token} {stop : Disk Token → Prop} {d : Disk Token}

def Saves (incoming : Option Token) (d : Disk Token) (action : (store Token).Action) (outcome : Outcome) : Prop :=
  Reads d action outcome ∧ Parks incoming d action outcome

theorem saves_reads (d : Disk Token) (action : (store Token).Action) (outcome : Outcome) (saves : Saves incoming d action outcome) :
    Reads d action outcome := saves.1

theorem loose_settled (loose : Loose d) (single : ¬ Twice d) : Settled d := by
  refine ⟨loose,?_⟩
  intro t key here there
  exact single ⟨t,key,here,there⟩

theorem settled_single (settled : Settled d) : ¬ Twice d := by
  rintro ⟨t,key,here,there⟩
  exact settled.once t key here there

def Parked (d after : Disk Token) : Prop := ∀ key t, after.parked key = some t → d.parked key = some t ∨ Active d t

theorem parked_loose {after : Disk Token} {t : Token} {key : Text} (settled : Settled d) (here : d.token = some t)
    (absent : d.state.token = none) (state : after.state = d.state)
    (parked : after.parked = Function.update d.parked key (some t)) (listed : ∀ k, k ∈ keys d.hosts ∨ k = key → k ∈ keys after.hosts)
    (normal : ∀ k ∈ keys after.hosts, pinKey k = k) : Loose after where
  recorded := by
    intro k u there
    rw [parked,Function.update_apply] at there
    split at there
    · rename_i same
      exact listed k (.inr same)
    · exact listed k (.inl (settled.recorded k u there))
  unique := by
    intro one other u first second
    rw [parked,Function.update_apply] at first second
    split at first
    · rename_i same
      cases first
      split at second
      · rename_i equal
        rw [same,equal]
      · exact absurd second (settled.once t other here)
    · split at second
      · cases second
        exact absurd first (settled.once t one here)
      · exact settled.unique one other u first second
  legacy := by
    rw [state,absent]
    exact nofun
  older := by
    rw [state,absent]
    exact nofun
  normal := normal
  pins := by
    rw [state]
    exact settled.pins

theorem unparked_settled {after : Disk Token} {key : Text} (settled : Settled d) (state : after.state = d.state) (token : after.token = d.token)
    (parked : after.parked = Function.update d.parked key none) (listed : ∀ k ∈ keys d.hosts, k ∈ keys after.hosts)
    (normal : ∀ k ∈ keys after.hosts, pinKey k = k) : Settled after := by
  have fewer : ∀ k u, after.parked k = some u → d.parked k = some u := by
    rw [parked]
    exact fun k u there => (emptied there).1
  exact fewer_settled settled state token fewer (fun k u there => listed k (settled.recorded k u (fewer k u there))) normal

theorem deleteEach_meets {α : Type} (account : α → Text) (list : List α) :
    Meets (Saves incoming) stop (each (fun a => deleteParked (account a)) list : Flow Token Unit) d fun after result =>
      result = some () ∧ after.state = d.state ∧ after.token = d.token ∧ after.hosts = d.hosts ∧
        (∀ a ∈ list, after.parked (account a) = none) ∧ (∀ key, (∀ a ∈ list, account a ≠ key) → after.parked key = d.parked key) ∧
        ∀ key t, after.parked key = some t → d.parked key = some t := by
  induction list generalizing d with
  | nil => exact ⟨rfl,rfl,rfl,rfl,fun _ member => absurd member List.not_mem_nil,fun _ _ => rfl,fun _ _ => id⟩
  | cons a rest ih =>
    refine sure_then saves_reads ?_ id
    refine meets_imp ?_ ih
    rintro after result ⟨done,state,token,hosts,gone,left,fewer⟩
    have back : ∀ key t, after.parked key = some t → d.parked key = some t ∧ key ≠ account a := fun key t there => emptied (fewer key t there)
    refine ⟨done,state,token,hosts,?_,?_,fun key t there => (back key t there).1⟩
    · intro b member
      rcases List.mem_cons.mp member with rfl | later
      · cases there : after.parked (account b) with
        | none => rfl
        | some t => exact absurd rfl (back _ t there).2
      · exact gone b later
    · intro key others
      refine (left key fun b member => others b (List.mem_cons_of_mem _ member)).trans ?_
      change Function.update d.parked (account a) none key = d.parked key
      rw [Function.update_apply,if_neg]
      intro same
      exact others a (List.mem_cons_self ..) same.symm

theorem listed_keys {active : Saved Token} {pins : List (Text × String)} {file : List Record} {key : Text} :
    key ∈ keys (addPinned (addActive file active) pins) ↔ key ∈ keys file ∨ keyOf active = some key ∨ key ∈ pins.map (·.1) := by
  rw [addPinned_keys]
  unfold addActive keyOf
  split
  · rw [upsert_keys,Option.some_inj,or_assoc,eq_comm (a := key)]
  · simp

theorem keyOf_normal {active : Saved Token} {key : Text} (known : keyOf active = some key) : pinKey key = key := by
  unfold keyOf at known
  split at known
  · cases known
    exact pinKey_pinKey active.host
  · cases known

theorem kept_key (same : one.key = other.key)
    (stays : kept activeKey pins one = true) : kept activeKey pins other = true := by
  unfold kept at stays ⊢
  rwa [same] at stays

structure Trimmed (activeKey : Option Text) (pins : List (Text × String)) (file : List Record) (d after : Disk Token) : Prop where
  state : after.state = d.state
  token : after.token = d.token
  hosts : after.hosts = d.hosts
  fewer : ∀ key t, after.parked key = some t → d.parked key = some t
  gone : ∀ r ∈ file, kept activeKey pins r = false → after.parked (parkedAccount r.key) = none
  left : ∀ key, (∀ r ∈ file, kept activeKey pins r = false → parkedAccount r.key ≠ key) →
    (∀ own, activeKey = some own → parkedAccount own ≠ key) → after.parked key = d.parked key

section Trims
variable {activeKey : Option Text} {pins : List (Text × String)} {file : List Record} {trimmed last : Disk Token}

theorem trimmed_settled (settled : Settled d) (normal : ∀ key ∈ keys file, pinKey key = key) (listed : ∀ key ∈ keys d.hosts, key ∈ keys file)
    (trim : Trimmed activeKey pins file d trimmed) (state : last.state = trimmed.state) (token : last.token = trimmed.token)
    (parked : last.parked = trimmed.parked) (hosts : last.hosts = file.filter (kept activeKey pins)) : Settled last := by
  have recorded : ∀ key t, trimmed.parked key = some t → key ∈ keys (file.filter (kept activeKey pins)) := by
    intro key t there
    have old := settled.recorded key t (trim.fewer key t there)
    obtain ⟨r,member,rfl⟩ := List.mem_map.mp (listed key old)
    refine List.mem_map_of_mem (List.mem_filter.mpr ⟨member,?_⟩)
    cases stays : kept activeKey pins r with
    | true => rfl
    | false =>
      have none := trim.gone r member stays
      rw [parkedAccount,normal r.key (List.mem_map_of_mem member),there] at none
      cases none
  refine fewer_settled settled (state.trans trim.state) (token.trans trim.token) ?_ ?_ ?_
  · rw [parked]
    exact trim.fewer
  · rw [parked,hosts]
    exact recorded
  · rw [hosts]
    intro key member
    obtain ⟨r,there,rfl⟩ := List.mem_map.mp member
    exact normal r.key (List.mem_map_of_mem (List.mem_of_mem_filter there))

theorem trimmed_parked (normal : ∀ key ∈ keys file, pinKey key = key) (own : ∀ key, activeKey = some key → pinKey key = key)
    (trim : Trimmed activeKey pins file d trimmed) {key : Text} (member : key ∈ keys (file.filter (kept activeKey pins)))
    (other : activeKey ≠ some key) : trimmed.parked key = d.parked key := by
  obtain ⟨r,there,rfl⟩ := List.mem_map.mp member
  apply trim.left
  · intro dropped inside unkept equal
    rw [parkedAccount,normal dropped.key (List.mem_map_of_mem inside)] at equal
    rw [kept_key equal.symm (List.mem_filter.mp there).2] at unkept
    cases unkept
  · intro key known equal
    rw [parkedAccount,own key known] at equal
    rw [equal] at known
    exact other known

theorem dropParked_meets (activeKey : Option Text) (pins : List (Text × String)) (file : List Record) :
    Meets (Saves incoming) stop (dropParked activeKey pins file) d fun after result =>
      result = some () ∧ Trimmed activeKey pins file d after := by
  apply meets_bind
  refine meets_imp ?_ (deleteEach_meets (fun r : Record => parkedAccount r.key) (file.filter (!kept activeKey pins ·)))
  rintro middle _ ⟨rfl,state,token,hosts,gone,left,fewer⟩
  refine meets_imp ?_ (deleteEach_meets (fun key : Text => parkedAccount key) activeKey.toList)
  rintro after _ ⟨rfl,state',token',hosts',_,left',fewer'⟩
  refine ⟨rfl,state'.trans state,token'.trans token,hosts'.trans hosts,fun key t there => fewer key t (fewer' key t there),?_,?_⟩
  · intro r member unkept
    cases there : after.parked (parkedAccount r.key) with
    | none => rfl
    | some t =>
      have none := gone r (List.mem_filter.mpr ⟨member,by rw [unkept]; rfl⟩)
      rw [fewer' _ t there] at none
      cases none
  · intro key dropped own
    rw [left' key fun k known => own k (Option.mem_toList.mp known),left]
    intro r member
    obtain ⟨inside,unkept⟩ := List.mem_filter.mp member
    exact dropped r inside (by simpa using unkept)

end Trims

theorem writeChanged_meets {before file : List Record} (hosts : d.hosts = before) :
    Meets (Saves incoming) stop (writeChanged before file) d fun after result => result = some () ∧ after = {d with hosts := file} := by
  unfold writeChanged
  split
  · rename_i unchanged
    refine ⟨rfl,?_⟩
    rw [unchanged,←hosts]
  · exact sure_last saves_reads ⟨rfl,rfl⟩ id

structure Replaced (s : Saved Token) (d after : Disk Token) : Prop extends Loose after where
  token : after.token = s.token
  legacyGone : after.state.token = none
  parked : Parked d after

theorem replaced_settled {s : Saved Token} {after : Disk Token} {key : Text} (settled : Settled d) (replaced : Replaced s d after)
    (parked : s.token = d.parked key) : Settled {after with parked := Function.update after.parked key none} := by
  have fewer : ∀ k t, Function.update after.parked key none k = some t → after.parked k = some t ∧ k ≠ key := fun _ _ => emptied
  refine ⟨⟨?_,?_,?_,?_,replaced.normal,replaced.pins⟩,?_⟩
  · exact fun k t there => replaced.recorded k t (fewer k t there).1
  · exact fun one other t first second => replaced.unique one other t (fewer one t first).1 (fewer other t second).1
  · exact replaced.legacy
  · exact fun t k now there => replaced.older t k now (fewer k t there).1
  · intro t k here there
    obtain ⟨still,differs⟩ := fewer k t there
    have source : d.parked key = some t := parked.symm.trans (replaced.token.symm.trans here)
    rcases replaced.parked k t still with old | wasActive
    · exact differs (settled.unique k key t old source)
    · exact settled_active settled key wasActive source

variable [DecidableEq Token]

theorem parkBeforeReplace_meets (settled : Settled d) (host : Text) :
    Meets (Saves incoming) stop (parkBeforeReplace host : Flow Token _) d fun after result =>
      Loose after ∧ Parked d after ∧ (result = none → ¬ Twice after ∨ incoming.isSome = true) := by
  apply meets_bind
  refine meets_imp ?_ (loadActive_meets saves_reads settled)
  rintro d' loaded ⟨same,kept,_,known⟩
  have parkedSame : Parked d d' := by
    intro key t there
    rw [same.parked] at there
    exact .inl there
  cases loaded with
  | none => exact ⟨kept.toLoose,parkedSame,fun _ => .inl (settled_single kept)⟩
  | some cur =>
    have as := known cur rfl
    change Meets _ stop (if cur.host = [] ∨ pinKey cur.host = pinKey host then pure () else
      park (pinKey cur.host) cur.token >>= fun _ => readFile >>= fun file => writeFile (upsert file cur.host cur.username cur.deviceId)) d' _
    split
    · exact ⟨kept.toLoose,parkedSame,nofun⟩
    · have account : parkedAccount (pinKey cur.host) = pinKey cur.host := pinKey_pinKey cur.host
      have normal : ∀ k ∈ keys (upsert d'.hosts cur.host cur.username cur.deviceId), pinKey k = k := by
        intro k member
        rcases (upsert_keys _ _ _).mp member with old | rfl
        · exact kept.normal k old
        · exact pinKey_pinKey cur.host
      have listed : ∀ k, k ∈ keys d'.hosts ∨ k = pinKey cur.host → k ∈ keys (upsert d'.hosts cur.host cur.username cur.deviceId) :=
        fun k => (upsert_keys _ _ _).mpr
      cases token : cur.token with
      | none =>
        refine sure_then saves_reads ?_ id
        refine sure_then saves_reads ?_ id
        have after : Settled {d' with
            parked := Function.update d'.parked (parkedAccount (pinKey cur.host)) none
            hosts := upsert d'.hosts cur.host cur.username cur.deviceId} :=
          unparked_settled kept rfl rfl rfl (fun k member => listed k (.inl member)) normal
        refine sure_last saves_reads ⟨after.toLoose,?_,nofun⟩ id
        exact fun key t there => parkedSame key t (emptied there).1
      | some t =>
        have here : d'.token = some t := as.token.symm.trans token
        have parkedNow : ∀ hosts, Parked d {d' with parked := Function.update d'.parked (pinKey cur.host) (some t),hosts := hosts} := by
          intro hosts key u there
          change Function.update d'.parked (pinKey cur.host) (some t) key = some u at there
          rw [Function.update_apply] at there
          split at there
          · cases there
            exact .inr ((same.active t).mp (.inl here))
          · exact parkedSame key u there
        unfold park
        rw [account]
        apply meets_bind
        refine sure_then saves_reads ?_ id
        refine request_then saves_reads ?_ ?_
        · intro refused
          -- only the one case in which the save goes on
          have twice : Twice {d' with parked := Function.update d'.parked (pinKey cur.host) (some t)} :=
            ⟨t,pinKey cur.host,here,Function.update_self ..⟩
          obtain ⟨recorded,sure⟩ := refused.2 rfl twice
          refine ⟨parked_loose kept here as.legacy rfl rfl ?_ kept.normal,parkedNow d'.hosts,fun _ => .inr sure⟩
          rintro k (old | rfl)
          · exact old
          · exact recorded
        · change Meets _ stop (if Function.update d'.parked (pinKey cur.host) (some t) (pinKey cur.host) = some t then pure () else fail) _ _
          rw [if_pos (Function.update_self ..)]
          refine sure_then saves_reads ?_ id
          refine sure_last saves_reads ⟨?_,parkedNow _,nofun⟩ id
          exact parked_loose kept here as.legacy rfl rfl listed normal

theorem save_meets {s : Saved Token} (settled : Settled d) :
    Meets (Saves s.token) stop (save s) d fun after result => (result = none → Settled after) ∧ ∀ u, result = some u → Replaced s d after := by
  apply meets_bind
  apply meets_attempt
  refine meets_imp ?_ (parkBeforeReplace_meets settled s.host)
  rintro d' result ⟨loose,parked,failed⟩
  change Meets _ stop (if result = none ∧ s.token = none then fail else readState >>= fun f => getToken >>= fun previous =>
    replaceToken s.token >>= fun _ => writeOrRestore (f.session s) previous) d' _
  split
  · rename_i both
    refine ⟨fun _ => loose_settled loose ?_,nofun⟩
    rcases failed both.1 with single | sure
    · exact single
    · rw [both.2] at sure
      cases sure
  · refine sure_then saves_reads ?_ id
    refine request_then saves_reads ?_ ?_
    · intro refused
      exact ⟨fun _ => loose_settled loose (refused.2 rfl),nofun⟩
    · have written : Replaced s d {d' with token := s.token,state := (d'.state.read.session s).written} :=
        ⟨⟨loose.recorded,loose.unique,nofun,nofun,loose.normal,session_keyed (read_keyed loose.pins) s⟩,rfl,rfl,parked⟩
      have after : Meets (Saves s.token) stop (writeOrRestore (d'.state.read.session s) d'.token) {d' with token := s.token} fun after result =>
          (result = none → Settled after) ∧ ∀ u, result = some u → Replaced s d after :=
        ⟨fun killed => (reads_killed killed.1).elim,fun refused => refused.1.elim,fun _ => ⟨nofun,fun _ _ => written⟩⟩
      cases token : s.token with
      | none | some t =>
        rw [token] at after
        exact sure_then saves_reads after id

theorem sync_meets (settled : Settled d) : Meets (Saves incoming) stop (sync : Flow Token _) d fun after result =>
    Settled after ∧ ∀ synced, result = some synced → after.hosts = synced.file ∧
      ∀ key ∈ keys synced.file, synced.activeKey ≠ some key → after.parked key = d.parked key := by
  refine sure_then saves_reads ?_ id
  apply meets_bind
  refine meets_imp ?_ (loadActive_meets saves_reads settled)
  rintro d' loaded ⟨same,kept,_,_⟩
  cases loaded with
  | none => exact ⟨kept,nofun⟩
  | some active =>
    apply meets_bind
    refine sure_then saves_reads ?_ id
    have normal : ∀ key ∈ keys (addPinned (addActive d.hosts active) d'.state.read.pinned), pinKey key = key := by
      intro key member
      rcases listed_keys.mp member with old | own | pinned
      · exact settled.normal key old
      · exact keyOf_normal own
      · obtain ⟨p,there,rfl⟩ := List.mem_map.mp pinned
        exact read_keyed kept.pins p there
    have listed : ∀ key ∈ keys d'.hosts, key ∈ keys (addPinned (addActive d.hosts active) d'.state.read.pinned) := by
      rw [same.hosts]
      exact fun key member => listed_keys.mpr (.inl member)
    apply meets_bind
    refine meets_imp ?_ (dropParked_meets (keyOf active) d'.state.read.pinned (addPinned (addActive d.hosts active) d'.state.read.pinned))
    rintro trimmed _ ⟨rfl,trim⟩
    apply meets_bind
    refine meets_imp ?_ (writeChanged_meets (trim.hosts.trans same.hosts))
    rintro _ _ ⟨rfl,rfl⟩
    refine ⟨trimmed_settled kept normal listed trim rfl rfl rfl rfl,?_⟩
    intro synced ended
    cases ended
    refine ⟨rfl,?_⟩
    intro key member other
    refine (trimmed_parked normal (fun _ => keyOf_normal) trim member other).trans ?_
    exact congrFun same.parked key

theorem switch_meets (settled : Settled d) (key : Text) :
    Meets (Saves (d.parked (pinKey key))) stop (switch key) d fun after _ => Settled after := by
  apply meets_bind
  refine meets_imp ?_ (sync_meets settled)
  rintro d' result ⟨kept,synced⟩
  cases result with
  | none => exact kept
  | some s =>
    obtain ⟨hosts,parked⟩ := synced s rfl
    change Meets _ stop (orFail (find s.file (pinKey key)) >>= fun record => if s.activeKey = some (pinKey key) then pure s.active else
      orFail (pinOf s.pins (pinKey key)) >>= fun fingerprint => getParked (parkedAccount (pinKey key)) >>= fun token =>
        save ⟨record.host,fingerprint,token,record.username,record.deviceId⟩ >>= fun _ => deleteParked (parkedAccount (pinKey key)) >>= fun _ =>
          pure ⟨record.host,fingerprint,token,record.username,record.deviceId⟩) d' _
    cases found : find s.file (pinKey key) with
    | none => exact kept
    | some record =>
      split
      · exact kept
      · rename_i other
        cases pinOf s.pins (pinKey key) with
        | none => exact kept
        | some fingerprint =>
          have account : parkedAccount (pinKey key) = pinKey key := pinKey_pinKey key
          rw [account]
          have listed : pinKey key ∈ keys s.file := by
            have named := List.find?_some found
            rw [←of_decide_eq_true named]
            exact List.mem_map_of_mem (List.mem_of_find?_eq_some found)
          refine request_then saves_reads (fun _ => kept) ?_
          rw [←parked (pinKey key) listed other]
          apply meets_bind
          refine meets_imp ?_ (save_meets (s := ⟨record.host,fingerprint,d'.parked (pinKey key),record.username,record.deviceId⟩) kept)
          rintro after result ⟨failed,done⟩
          cases result with
          | none => exact failed rfl
          | some u => exact sure_then saves_reads (replaced_settled kept (done u rfl) rfl) id

theorem signIn_meets {s : Saved Token} (settled : Settled d) (fresh : ∀ t, s.token = some t → ¬ Stored d t) :
    Meets (Saves s.token) stop (save s) d fun after _ => Settled after := by
  refine meets_imp ?_ (save_meets settled)
  rintro after result ⟨failed,done⟩
  cases result with
  | none => exact failed rfl
  | some u =>
    have replaced := done u rfl
    refine ⟨replaced.toLoose,?_⟩
    intro t key here there
    apply fresh t (replaced.token.symm.trans here)
    rcases replaced.parked key t there with old | slot | legacy
    · exact .inr (.inr ⟨key,old⟩)
    · exact .inl slot
    · exact .inr (.inl legacy)

end Saves

section Runs

theorem perform_legacy (action : Action Token) (there : (perform action d).1.state.token = some t) :
    d.state.token = some t := by
  cases action with
  | writeState f | writeSession f => cases there
  | _ => exact there

theorem execute_legacy {α : Type} {p : Flow Token α} {d last : Disk Token} {outcomes : List Outcome} {result : Option α} {t : Token}
    (executed : execute p d outcomes = some (last,result)) (there : last.state.token = some t) : d.state.token = some t := by
  induction outcomes generalizing p d with
  | nil =>
    cases p with
    | ends done =>
      cases executed
      exact there
    | calls action next => cases executed
  | cons outcome rest ih =>
    cases p with
    | ends done => cases executed
    | calls action next =>
      cases outcome with
      | done => exact perform_legacy action (ih executed)
      | refused => exact ih executed
      | killed => cases executed

def Knows (d : Disk Token) (call : SignOut Token) : Prop :=
  match call.stage with
  | .failed => ∀ t, d.state.token = some t → call.login = some t
  | .asked saved => ∀ t, saved.token = some t → call.login = some t
  | .answered saved revoked => (∀ t, saved.token = some t → call.login = some t) ∧ (revoked = true → saved.token.isSome = true)
  | _ => True

structure Kept (s : State Token) : Prop where
  settled : Settled s.disk
  knows : ∀ call ∈ s.signOuts, Knows s.disk call

def Spared (before : State Token) (event : Event Token) (after : State Token) : Prop :=
  match event with
  | .signIn _ _ => True
  | .switch _ _ => True
  | .dropRefused token _ => Spares (some token) before.disk after.disk
  | .begin _ => Spares (active before.disk) before.disk after.disk
  | .readFallback _ => after.disk = before.disk
  | .answer _ _ => after.disk = before.disk
  | .clear i _ => ∀ call, before.signOuts[i]? = some call → Spares call.login before.disk after.disk ∧
      ∀ ended, after.signOuts[i]? = some ended → ended.stage = .returned true → ∀ t, call.login = some t → ¬ Stored after.disk t

variable {s next : State Token} {event : Event Token}

theorem knows_later {d after : Disk Token} {call : SignOut Token} (knows : Knows d call)
    (older : ∀ t, after.state.token = some t → d.state.token = some t) : Knows after call := by
  unfold Knows at knows ⊢
  cases stage : call.stage with
  | failed =>
    rw [stage] at knows
    exact fun t there => knows t (older t there)
  | _ =>
    rw [stage] at knows
    exact knows

theorem kept_goes {i : Nat} {stage : Stage Token} {call : SignOut Token} (kept : Kept s) (stood : s.signOuts[i]? = some call)
    (knows : Knows s.disk {call with stage := stage}) : Kept (s.goes i stage) := by
  refine ⟨kept.settled,?_⟩
  intro other member
  obtain ⟨j,there⟩ := List.mem_iff_getElem?.mp member
  change (s.signOuts.modify i _)[j]? = some other at there
  rw [List.getElem?_modify] at there
  obtain ⟨old,before,same⟩ := Option.map_eq_some_iff.mp there
  split at same
  · rename_i here
    subst here same
    cases stood.symm.trans before
    exact knows
  · subst same
    exact kept.knows old (List.mem_of_getElem? before)

theorem kept_disk {α : Type} {p : Flow Token α} {outcomes : List Outcome} {result : Option α} {last : Disk Token} (kept : Kept s)
    (executed : execute p s.disk outcomes = some (last,result)) (settled : Settled last) : Kept {s with disk := last} :=
  ⟨settled,fun call member => knows_later (kept.knows call member) fun _ => execute_legacy executed⟩

variable [DecidableEq Token]

theorem step_spared (kept : Kept s) (possible : Possible s event) (careful : Careful s event) (stepped : step s event = some next) :
    Kept next ∧ Spared s event next := by
  have reads : ∀ (d : Disk Token) (action : (store Token).Action) (outcome : Outcome), Reads d action outcome → Reads d action outcome :=
    fun _ _ _ => id
  cases event with
  | signIn session outcomes =>
    obtain ⟨⟨disk,result⟩,executed,same⟩ := Option.bind_eq_some_iff.mp stepped
    cases same
    have settled := meets_execute (fun _ => True) (signIn_meets kept.settled possible.2) (along_and possible.1 careful) executed
    exact ⟨kept_disk kept executed settled,trivial⟩
  | switch key outcomes =>
    obtain ⟨⟨disk,result⟩,executed,same⟩ := Option.bind_eq_some_iff.mp stepped
    cases same
    have settled := meets_execute (fun _ => True) (switch_meets kept.settled key) (along_and possible careful) executed
    exact ⟨kept_disk kept executed settled,trivial⟩
  | dropRefused token outcomes =>
    obtain ⟨⟨disk,result⟩,executed,same⟩ := Option.bind_eq_some_iff.mp stepped
    cases same
    obtain ⟨settled,spares⟩ := meets_execute (fun _ => True) (dropRefusedToken_meets reads kept.settled token) possible executed
    exact ⟨kept_disk kept executed settled,spares⟩
  | begin outcomes =>
    obtain ⟨⟨disk,loaded⟩,executed,same⟩ := Option.bind_eq_some_iff.mp stepped
    cases same
    obtain ⟨unchanged,settled,_,known⟩ := meets_execute (fun _ => True) (loadActive_meets reads kept.settled) possible.1 executed
    refine ⟨⟨settled,?_⟩,same_spares unchanged _⟩
    intro call member
    rcases List.mem_append.mp member with old | new
    · exact knows_later (kept.knows call old) fun _ => execute_legacy executed
    · cases List.mem_singleton.mp new
      cases loaded with
      | none =>
        intro t there
        rw [active,unchanged.legacy t there,Option.some_or]
      | some saved =>
        intro t there
        exact (known saved rfl).active.symm.trans there
  | readFallback i =>
    obtain ⟨call,stood,went⟩ := Option.bind_eq_some_iff.mp stepped
    have knows := kept.knows call (List.mem_of_getElem? stood)
    split at went
    · rename_i failed
      cases went
      rw [Knows,failed] at knows
      refine ⟨kept_goes kept stood ?_,rfl⟩
      intro t there
      exact knows t ((read_token s.disk.state).symm.trans there)
    · cases went
  | answer i revoked =>
    obtain ⟨call,stood,went⟩ := Option.bind_eq_some_iff.mp stepped
    have knows := kept.knows call (List.mem_of_getElem? stood)
    split at went
    · rename_i saved asked
      split at went
      · cases went
      · rename_i known
        cases went
        rw [Knows,asked] at knows
        refine ⟨kept_goes kept stood ⟨knows,?_⟩,rfl⟩
        intro told
        by_contra unknown
        exact known ⟨told,fun all => unknown all.1⟩
    · cases went
  | clear i outcomes =>
    obtain ⟨call,stood,went⟩ := Option.bind_eq_some_iff.mp stepped
    have knows := kept.knows call (List.mem_of_getElem? stood)
    split at went
    · rename_i saved revoked answered
      obtain ⟨⟨disk,result⟩,executed,same⟩ := Option.bind_eq_some_iff.mp went
      cases same
      rw [Knows,answered] at knows
      have allowed := careful call saved revoked stood answered
      have unknown : saved.token = none → Own call.login s.disk ∧ revoked = false := by
        intro absent
        refine ⟨allowed.1 absent,?_⟩
        cases revoked with
        | false => rfl
        | true =>
          have known := knows.2 rfl
          rw [absent] at known
          cases known
      obtain ⟨settled,spares,gone⟩ := meets_execute (fun _ => True) (clearLogin_meets kept.settled knows.1 unknown)
        (along_and (possible call saved revoked stood answered) allowed.2) executed
      refine ⟨kept_goes (kept_disk kept executed settled) stood ?_,?_⟩
      · cases result with
        | none | some u => trivial
      · intro other there
        cases stood.symm.trans there
        refine ⟨spares,?_⟩
        intro ended after told
        change (s.signOuts.modify i _)[i]? = some ended at after
        rw [List.getElem?_modify_eq,stood] at after
        cases after
        cases result with
        | none => cases told
        | some u =>
          cases told
          exact gone u rfl rfl
    · cases went

theorem removals_spare_others {d : Disk Token} {events : List (Event Token)} (start : Settled d)
    (meets : Runs.Every step (fun s event => Possible s event ∧ Careful s event) ⟨d,[]⟩ events) :
    ∀ past event rest before after, events = past ++ event::rest → Runs.run step ⟨d,[]⟩ past = some before →
      step before event = some after → Spared before event after := by
  intro past event rest before after split ran stepped
  subst split
  have kept : Kept before := by
    refine Runs.run_preserves_when Kept ?_ ⟨start,fun _ member => absurd member List.not_mem_nil⟩ (Runs.every_front meets) ran
    intro s event next kept both moved
    exact (step_spared kept both.1 both.2 moved).1
  obtain ⟨possible,careful⟩ := (Runs.every_back meets ran).1
  exact (step_spared kept possible careful stepped).2

end Runs

theorem reads_done (d : Disk Token) (action : (store Token).Action) : Reads d action .done := by
  cases action <;> trivial

def twoHosts : Disk Nat :=
  ⟨⟨['b'],"B","","2",none,some [(['a'],"A"),(['b'],"B")]⟩,[⟨['a'],['a'],['a'],"","1"⟩],some 1,Function.update (fun _ => none) ['a'] (some 0)⟩

theorem twoHosts_parked (there : twoHosts.parked key = some t) : key = ['a'] ∧ t = 0 := by
  change Function.update (fun _ => none) ['a'] (some 0) key = some t at there
  rw [Function.update_apply] at there
  split at there
  · rename_i same
    cases there
    exact ⟨same,rfl⟩
  · cases there

theorem twoHosts_settled : Settled twoHosts where
  recorded := by
    intro key t there
    obtain ⟨rfl,_⟩ := twoHosts_parked there
    decide
  unique := by
    intro one other t first second
    rw [(twoHosts_parked first).1,(twoHosts_parked second).1]
  legacy := nofun
  older := nofun
  normal := by decide
  pins := by
    unfold Keyed
    decide
  once := by
    intro t key here there
    cases here
    cases (twoHosts_parked there).2

def done (n : Nat) : List Outcome := List.replicate n .done

theorem done_all : ∀ outcome ∈ done n, outcome = .done := fun _ => List.eq_of_mem_replicate

def switched : List (Event Nat) := [.begin (done 2),.answer 0 true,.switch ['a'] (done 18)]

theorem switched_meets (last : Event Nat)
    (holds : ∀ before, Runs.run step ⟨twoHosts,[]⟩ switched = some before → Possible before last ∧ Careful before last) :
    Runs.Every step (fun s event => Possible s event ∧ Careful s event) ⟨twoHosts,[]⟩ (switched ++ [last]) := by
  refine ⟨⟨⟨along_done reads_done done_all,rfl⟩,trivial⟩,?_⟩
  intro one first
  refine ⟨⟨trivial,trivial⟩,?_⟩
  intro two second
  refine ⟨⟨along_done reads_done done_all,along_done (fun _ _ => nofun) done_all⟩,?_⟩
  intro three third
  refine ⟨holds three ?_,fun _ _ => trivial⟩
  exact Runs.run_cons.mpr ⟨one,first,Runs.run_cons.mpr ⟨two,second,Runs.run_cons.mpr ⟨three,third,rfl⟩⟩⟩

theorem switched_sign_out_clears_own : ∃ before after, Runs.run step ⟨twoHosts,[]⟩ switched = some before ∧
    step before (.clear 0 (done 6)) = some after ∧ after.disk.token = some 0 ∧ ¬ Stored after.disk 1 := by
  have meets := switched_meets (.clear 0 (done 6)) (by
    intro before ran
    refine ⟨?_,?_⟩
    · intro call saved revoked stood answered
      exact along_done reads_done done_all
    · intro call saved revoked stood answered
      cases ran
      cases stood
      cases answered
      exact ⟨nofun,along_done (fun _ _ => nofun) done_all⟩)
  refine ⟨_,_,rfl,rfl,rfl,?_⟩
  exact (removals_spare_others twoHosts_settled meets switched (.clear 0 (done 6)) [] _ _ rfl rfl rfl ⟨some 1,_⟩ rfl).2 _ rfl rfl 1 rfl

theorem refused_read_clears_other_login : ∃ before after, Runs.run step ⟨twoHosts,[]⟩ switched = some before ∧
    Runs.Every step Possible ⟨twoHosts,[]⟩ (switched ++ [.clear 0 [.done,.refused,.done,.done]]) ∧
    step before (.clear 0 [.done,.refused,.done,.done]) = some after ∧
    before.disk.token = some 0 ∧ after.disk.token = none ∧ after.disk.parked ['b'] = some 1 ∧
    ¬ Spared before (.clear 0 [.done,.refused,.done,.done]) after := by
  refine ⟨_,_,rfl,?_,rfl,rfl,rfl,rfl,?_⟩
  · refine ⟨⟨along_done reads_done done_all,rfl⟩,?_⟩
    intro one first
    refine ⟨trivial,?_⟩
    intro two second
    refine ⟨along_done reads_done done_all,?_⟩
    intro three third
    refine ⟨?_,fun _ _ => trivial⟩
    intro call saved revoked stood answered
    cases first
    cases second
    cases third
    cases stood
    cases answered
    exact ⟨trivial,trivial,trivial,trivial,trivial⟩
  · intro spared
    have other := ((spared ⟨some 1,_⟩ rfl).1 0 nofun).1 (.inl rfl)
    rcases other with there | there
    · cases there
    · cases there

end RemoteFileExplorer.LoginRemovals

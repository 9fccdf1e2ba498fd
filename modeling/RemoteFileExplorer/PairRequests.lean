import Mathlib.Logic.Function.Basic
import RemoteFileExplorer.Devices

namespace RemoteFileExplorer.PairRequests
open Tables Devices

inductive Status where
  | committed
  | pending
  | approved
  | rejected
  | done
  deriving DecidableEq, Repr

structure PairRequest where
  id : String
  label : String
  clientId : String
  publicKey : String
  clientNonce : String
  nonceCommit : String
  remoteIP : String
  status : Status
  created : Int
  expires : Int
  deriving DecidableEq, Repr

def requestKeys : Schema PairRequest := Schema.key PairRequest.id

def maxPendingPairRequests : Nat := 3
def maxCommittedPairRequestsPerIP : Nat := 3
def maxCommittedPairRequests : Nat := 30
def pairRequestTTL : Int := 120

inductive PairError where
  | tooManyPairRequests
  | pairRequestGone
  | constraint
  deriving DecidableEq, Repr

def hexDigit (c : Char) : Option Nat :=
  if '0' ≤ c ∧ c ≤ '9' then some (c.toNat - '0'.toNat)
  else if 'a' ≤ c ∧ c ≤ 'f' then some (c.toNat - 'a'.toNat + 10)
  else if 'A' ≤ c ∧ c ≤ 'F' then some (c.toNat - 'A'.toNat + 10)
  else none

def decodeHex : List Char → Option (List Nat)
  | [] => some []
  | [_] => none
  | high::low::rest => do
    let h ← hexDigit high
    let l ← hexDigit low
    let bytes ← decodeHex rest
    return (h * 16 + l)::bytes

def validNonceCommit (s : String) : Bool := (decodeHex s.toList).any (fun bytes => bytes.length == 32)
def validClientNonce (s : String) : Bool := (decodeHex s.toList).any (fun bytes => bytes.length == 16)

def sanitizeLabel (s : String) : String :=
  let out := (s.toList.filter (fun c => !(c.toNat < 0x20 || c.toNat == 0x7f))).take 40
  if out = [] then "unnamed-device" else String.ofList out

-- UPDATE pair_requests SET .. WHERE ..; the id is never set.
def updateWhere (t : Table requestKeys) (chosen : PairRequest → Bool) (set : PairRequest → PairRequest)
    (keeps : ∀ r, (set r).id = r.id) : Table requestKeys :=
  t.modify (fun r => if chosen r then set r else r) (fun a b => by
    have same : ∀ r, (if chosen r then set r else r).id = r.id := by intro r; split <;> simp [keeps]
    simp [requestKeys,same])

def unexpiredIn (now : Int) (status : Status) (r : PairRequest) : Bool := r.status == status && decide (r.expires ≥ now)

def prunable (now : Int) (r : PairRequest) : Bool :=
  decide (r.expires < now) || ((r.status == .rejected || r.status == .done) && decide (r.created < now - 600))

-- One transaction: a refusal also rolls back the pruning.
def createPairRequest (now : Int) (t : Table requestKeys) (r : PairRequest) : Except PairError (Table requestKeys) :=
  let kept := t.delete (prunable now)
  if kept.count (unexpiredIn now .pending) ≥ maxPendingPairRequests then .error .tooManyPairRequests else
  if kept.count (fun q => unexpiredIn now .committed q && q.remoteIP == r.remoteIP) ≥ maxCommittedPairRequestsPerIP ||
    kept.count (unexpiredIn now .committed) ≥ maxCommittedPairRequests then .error .tooManyPairRequests else
  match kept.insert {r with clientNonce := "",status := .committed} with
  | none => .error .constraint
  | some next => .ok next

def getPairRequest (now : Int) (t : Table requestKeys) (id : String) : Option PairRequest :=
  match t.find (fun r => r.id == id) with
  | none => none
  | some r => if r.status == .pending && decide (r.expires < now) then none else some r

def decidePairRequest (now : Int) (t : Table requestKeys) (id : String) (approve : Bool) : Except PairError (Table requestKeys) :=
  let chosen := fun r : PairRequest => r.id == id && unexpiredIn now .pending r
  if t.count chosen = 0 then .error .pairRequestGone else
  .ok (updateWhere t chosen (fun r => {r with status := if approve then .approved else .rejected}) (fun _ => rfl))

def claimApprovedPairRequest (now : Int) (t : Table requestKeys) (id : String) : Option (Table requestKeys × PairRequest) :=
  let chosen := fun r : PairRequest => r.id == id && unexpiredIn now .approved r
  if t.count chosen = 0 then none else
  let next := updateWhere t chosen (fun r => {r with status := .done}) (fun _ => rfl)
  (next.find (fun r => r.id == id)).map (fun r => (next,r))

def revealPairRequest (now : Int) (t : Table requestKeys) (id clientNonce : String) :
    Except PairError (Table requestKeys × PairRequest) :=
  if t.count (unexpiredIn now .pending) ≥ maxPendingPairRequests then .error .tooManyPairRequests else
  let chosen := fun r : PairRequest => r.id == id && unexpiredIn now .committed r
  if t.count chosen = 0 then .error .pairRequestGone else
  let next := updateWhere t chosen (fun r => {r with clientNonce := clientNonce,status := .pending}) (fun _ => rfl)
  match next.find (fun r => r.id == id) with
  | none => .error .constraint
  | some r => .ok (next,r)

-- Which paired device an approval would take over: revoked, or pinned to another key.
def pairReplaces (db : DB) (clientId publicKey : String) : String :=
  match clientDeviceById db clientId with
  | none => ""
  | some d => if d.revoked || (d.publicKey != "" && d.publicKey != publicKey) then d.label else ""

-- Where one reveal or poll request stands between its database calls.
inductive Stage where
  | idle
  | revealing (id nonce : String)
  | revealChecked (request : PairRequest) (nonce : String)
  | polling (id nonce : String)
  | pollApproved (id : String)
  | claimed (request : PairRequest)
  | replacing (request : PairRequest) (replaces : String)
  | minted (deviceId replaces : String)
  | finished
  deriving DecidableEq, Repr

-- `drawn` lists every request id ever drawn and `mints` the request of every
-- device token stored for one; no handler reads them.
structure State where
  now : Int
  db : DB
  requests : Table requestKeys
  handlers : Nat → Stage
  drawn : List String
  mints : List String

def initial (now : Int) : State := ⟨now,.empty,.empty,fun _ => .idle,[],[]⟩

inductive Event where
  | store (op : Operation)
  | clock (seconds : Nat)
  | create (id deviceLabel clientId publicKey commit ip : String) (startedAt : Int)
  | decide (id : String) (approve : Bool)
  | revealArrive (handler : Nat) (id nonce : String)
  | revealCheck (handler : Nat)
  | reveal (handler : Nat)
  | pollArrive (handler : Nat) (id nonce : String)
  | pollCheck (handler : Nat)
  | claim (handler : Nat)
  | checkReplaces (handler : Nat)
  | mint (handler : Nat) (token uuid : String)
  | reset (handler : Nat)
  | fault (handler : Nat)
  deriving DecidableEq, Repr

def move (s : State) (handler : Nat) (stage : Stage) : State :=
  {s with handlers := Function.update s.handlers handler stage}

section Step
variable (hashToken : String → String) (sha256Hex : List Nat → String)

def nonceMatches (nonce commit : String) : Bool := (decodeHex nonce.toList).any (fun raw => sha256Hex raw == commit)

-- The device proof of a creation is left out: a request is created for any
-- client id and key. The id is 16 random bytes, so it was never drawn before;
-- the handler reads its clock before the transaction reads its own.
def step (s : State) : Event → Option State
  | .store op => some {s with db := ((exec hashToken s.now s.db op).toOption).getD s.db}
  | .clock seconds => some {s with now := s.now + seconds}
  | .create id deviceLabel clientId publicKey commit ip startedAt =>
    if s.drawn.contains id || !validNonceCommit commit || decide (s.now < startedAt) then none else
    let request := ⟨id,sanitizeLabel deviceLabel,clientId,publicKey,"",commit,ip,.committed,startedAt,startedAt + pairRequestTTL⟩
    some {s with requests := ((createPairRequest s.now s.requests request).toOption).getD s.requests,drawn := id::s.drawn}
  | .decide id approve => some {s with requests := ((decidePairRequest s.now s.requests id approve).toOption).getD s.requests}
  | .revealArrive handler id nonce =>
    match s.handlers handler with
    | .idle => some (move s handler (if validClientNonce nonce then .revealing id nonce else .finished))
    | _ => none
  | .revealCheck handler =>
    match s.handlers handler with
    | .revealing id nonce =>
      match getPairRequest s.now s.requests id with
      | none => some (move s handler .finished)
      | some r =>
        if r.status != .committed || !nonceMatches sha256Hex nonce r.nonceCommit then some (move s handler .finished)
        else some (move s handler (.revealChecked r nonce))
    | _ => none
  | .reveal handler =>
    match s.handlers handler with
    | .revealChecked request nonce =>
      match revealPairRequest s.now s.requests request.id nonce with
      | .error _ => some (move s handler .finished)
      | .ok (requests,_) => some (move {s with requests := requests} handler .finished)
    | _ => none
  | .pollArrive handler id nonce =>
    match s.handlers handler with
    | .idle => some (move s handler (.polling id nonce))
    | _ => none
  | .pollCheck handler =>
    match s.handlers handler with
    | .polling id nonce =>
      match getPairRequest s.now s.requests id with
      | none => some (move s handler .finished)
      | some r =>
        if r.clientNonce == "" || r.clientNonce != nonce || r.status != .approved then some (move s handler .finished)
        else some (move s handler (.pollApproved id))
    | _ => none
  | .claim handler =>
    match s.handlers handler with
    | .pollApproved id =>
      match claimApprovedPairRequest s.now s.requests id with
      | none => some (move s handler .finished)
      | some (requests,request) => some (move {s with requests := requests} handler (.claimed request))
    | _ => none
  | .checkReplaces handler =>
    match s.handlers handler with
    | .claimed request => some (move s handler (.replacing request (pairReplaces s.db request.clientId request.publicKey)))
    | _ => none
  | .mint handler token uuid =>
    match s.handlers handler with
    | .replacing request replaces =>
      match upsertDeviceTx hashToken s.now s.db request.clientId request.label token request.publicKey false uuid with
      | .error _ => some (move s handler .finished)
      | .ok (db,deviceId) => some {move s handler (.minted deviceId replaces) with db := db,mints := request.id::s.mints}
    | _ => none
  | .reset handler =>
    match s.handlers handler with
    | .minted deviceId replaces =>
      some (move {s with db := if replaces = "" then s.db else resetDeviceAccess s.db deviceId} handler .finished)
    | _ => none
  -- A database error, or a draw that fails, ends the request where it stands.
  | .fault handler => some (move s handler .finished)

end Step

inductive Moved (now : Int) : PairRequest → PairRequest → Prop where
  | stays : Moved now r r
  | revealed : r.status = .committed → now ≤ r.expires → Moved now r {r with clientNonce := nonce,status := .pending}
  | decided (approve : Bool) : r.status = .pending → now ≤ r.expires →
      Moved now r {r with status := if approve then .approved else .rejected}
  | collected : r.status = .approved → now ≤ r.expires → Moved now r {r with status := .done}

def Settled (now : Int) (r : PairRequest) : Prop := r.status = .rejected ∨ r.status = .done ∨ r.expires < now

theorem moved_settled (moved : Moved now r next) (settled : Settled now r) : next = r := by
  cases moved with
  | stays => rfl
  | revealed status live | decided _ status live | collected status live =>
    rcases settled with other | other | expired
    · rw [status] at other; cases other
    · rw [status] at other; cases other
    · omega

theorem moved_id (moved : Moved now r next) : next.id = r.id ∧ next.nonceCommit = r.nonceCommit := by
  cases moved <;> exact ⟨rfl,rfl⟩

theorem same_request {t : Table requestKeys} (left : a ∈ t.rows) (right : b ∈ t.rows) (same : a.id = b.id) : a = b :=
  Table.same_of_clash left right (by simp [requestKeys,same])

theorem unexpiredIn_iff : unexpiredIn now status r = true ↔ r.status = status ∧ now ≤ r.expires := by
  simp [unexpiredIn]

theorem chosen_iff : (r.id == requestId && unexpiredIn now status r) = true ↔
    r.id = requestId ∧ r.status = status ∧ now ≤ r.expires := by
  rw [Bool.and_eq_true,unexpiredIn_iff,beq_iff_eq]

theorem updateWhere_rows (t : Table requestKeys) (chosen : PairRequest → Bool) (set : PairRequest → PairRequest)
    (keeps : ∀ r, (set r).id = r.id) :
    (updateWhere t chosen set keeps).rows = t.rows.map (fun r => if chosen r then set r else r) := rfl

theorem mem_updateWhere {t : Table requestKeys} {chosen : PairRequest → Bool} {set : PairRequest → PairRequest}
    {keeps : ∀ r, (set r).id = r.id} (member : r ∈ (updateWhere t chosen set keeps).rows) :
    r ∈ t.rows ∨ ∃ old ∈ t.rows, chosen old = true ∧ r = set old := by
  obtain ⟨old,stored,equal⟩ := List.mem_map.mp member
  by_cases hit : chosen old = true
  · rw [if_pos hit] at equal
    exact .inr ⟨old,stored,hit,equal.symm⟩
  · rw [if_neg hit] at equal
    exact .inl (equal ▸ stored)

theorem created_rows (created : createPairRequest now t request = .ok next) :
    next.rows = (t.delete (prunable now)).rows ++ [{request with clientNonce := "",status := .committed}] := by
  simp only [createPairRequest] at created
  split at created
  · cases created
  · split at created
    · cases created
    · split at created
      · cases created
      · rename_i table inserted
        cases created
        exact (Table.insert_parts inserted).2

theorem decided_row (decided : decidePairRequest now t requestId approve = .ok next) (member : r ∈ next.rows) :
    r ∈ t.rows ∨ ∃ old ∈ t.rows, old.id = requestId ∧ old.status = .pending ∧ now ≤ old.expires ∧
      r = {old with status := if approve then .approved else .rejected} := by
  simp only [decidePairRequest] at decided
  split at decided
  · cases decided
  · cases decided
    rcases mem_updateWhere member with kept | ⟨old,stored,hit,equal⟩
    · exact .inl kept
    · obtain ⟨named,status,live⟩ := chosen_iff.mp hit
      exact .inr ⟨old,stored,named,status,live,equal⟩

section
variable (claimed : claimApprovedPairRequest now t requestId = some (next,request))
include claimed

theorem claimed_row (member : r ∈ next.rows) :
    r ∈ t.rows ∨ ∃ old ∈ t.rows, old.id = requestId ∧ old.status = .approved ∧ now ≤ old.expires ∧ r = {old with status := .done} := by
  obtain ⟨_,claimed⟩ := Option.ite_none_left_eq_some.mp claimed
  obtain ⟨found,_,pair⟩ := Option.map_eq_some_iff.mp claimed
  cases pair
  rcases mem_updateWhere member with kept | ⟨old,stored,hit,equal⟩
  · exact .inl kept
  · obtain ⟨named,status,live⟩ := chosen_iff.mp hit
    exact .inr ⟨old,stored,named,status,live,equal⟩

theorem claimed_request :
    ∃ old ∈ t.rows, old.id = requestId ∧ old.status = .approved ∧ now ≤ old.expires ∧
      request = {old with status := .done} ∧ request ∈ next.rows := by
  obtain ⟨affected,claimed⟩ := Option.ite_none_left_eq_some.mp claimed
  obtain ⟨found,lookup,pair⟩ := Option.map_eq_some_iff.mp claimed
  cases pair
  have present := List.mem_of_find?_eq_some lookup
  have named : request.id = requestId := by simpa using List.find?_some lookup
  -- Some row was affected; by the key it is the row that the SELECT returns.
  obtain ⟨old,stored,hit⟩ := List.countP_pos_iff.mp (Nat.pos_of_ne_zero affected)
  obtain ⟨oldNamed,status,live⟩ := chosen_iff.mp hit
  have rewritten : {old with status := .done} ∈ (updateWhere t (fun r => r.id == requestId && unexpiredIn now .approved r)
      (fun r => {r with status := .done}) (fun _ => rfl)).rows :=
    List.mem_map.mpr ⟨old,stored,if_pos hit⟩
  have equal := same_request present rewritten (named.trans oldNamed.symm)
  exact ⟨old,stored,oldNamed,status,live,equal,present⟩

end

theorem revealed_row (revealed : revealPairRequest now t requestId nonce = .ok (next,request)) (member : r ∈ next.rows) :
    r ∈ t.rows ∨ ∃ old ∈ t.rows, old.id = requestId ∧ old.status = .committed ∧ now ≤ old.expires ∧
      r = {old with clientNonce := nonce,status := .pending} := by
  simp only [revealPairRequest] at revealed
  split at revealed
  · cases revealed
  · split at revealed
    · cases revealed
    · split at revealed
      · cases revealed
      · cases revealed
        rcases mem_updateWhere member with kept | ⟨old,stored,hit,equal⟩
        · exact .inl kept
        · obtain ⟨named,status,live⟩ := chosen_iff.mp hit
          exact .inr ⟨old,stored,named,status,live,equal⟩

def pendingCount (now : Int) (t : Table requestKeys) : Nat := t.count (unexpiredIn now .pending)

theorem pendingCount_clock (t : Table requestKeys) (seconds : Nat) : pendingCount (now + seconds) t ≤ pendingCount now t := by
  refine List.countP_mono_left fun r _ waiting => ?_
  obtain ⟨status,live⟩ := unexpiredIn_iff.mp waiting
  exact unexpiredIn_iff.mpr ⟨status,by omega⟩

theorem pendingCount_created (created : createPairRequest now t request = .ok next) : pendingCount now next ≤ pendingCount now t := by
  unfold pendingCount Table.count
  rw [created_rows created,List.countP_append]
  have kept := (List.filter_sublist (p := fun r => !prunable now r) (l := t.rows)).countP_le (p := unexpiredIn now .pending)
  simpa [unexpiredIn] using kept

theorem pendingCount_grows {t : Table requestKeys} {chosen : PairRequest → Bool} {set : PairRequest → PairRequest}
    {keeps : ∀ r, (set r).id = r.id} :
    pendingCount now (updateWhere t chosen set keeps) ≤ pendingCount now t + t.count chosen := by
  unfold pendingCount Table.count
  rw [updateWhere_rows,List.countP_map]
  generalize t.rows = rows
  induction rows with
  | nil => simp
  | cons row rest ih =>
    simp only [List.countP_cons,Function.comp_apply]
    by_cases hit : chosen row = true
    · split <;> split <;> omega
    · simp only [hit,Bool.false_eq_true,if_false]
      omega

theorem pendingCount_update {t : Table requestKeys} {chosen : PairRequest → Bool} {set : PairRequest → PairRequest}
    {keeps : ∀ r, (set r).id = r.id} (answered : ∀ r, (set r).status ≠ .pending) :
    pendingCount now (updateWhere t chosen set keeps) ≤ pendingCount now t := by
  unfold pendingCount Table.count
  rw [updateWhere_rows,List.countP_map]
  refine List.countP_mono_left fun r _ waiting => ?_
  by_cases hit : chosen r = true
  · simp only [Function.comp_apply,hit,if_true] at waiting
    exact absurd (unexpiredIn_iff.mp waiting).1 (answered r)
  · simpa [hit] using waiting

theorem pendingCount_decided (decided : decidePairRequest now t requestId approve = .ok next) :
    pendingCount now next ≤ pendingCount now t := by
  simp only [decidePairRequest] at decided
  split at decided
  · cases decided
  · cases decided
    refine pendingCount_update fun r => ?_
    cases approve <;> simp

theorem pendingCount_claimed (claimed : claimApprovedPairRequest now t requestId = some (next,request)) :
    pendingCount now next ≤ pendingCount now t := by
  obtain ⟨_,claimed⟩ := Option.ite_none_left_eq_some.mp claimed
  obtain ⟨_,_,pair⟩ := Option.map_eq_some_iff.mp claimed
  cases pair
  exact pendingCount_update (by simp)

theorem pendingCount_revealed (revealed : revealPairRequest now t requestId nonce = .ok (next,request)) :
    pendingCount now next ≤ maxPendingPairRequests := by
  simp only [revealPairRequest] at revealed
  split at revealed
  · cases revealed
  · rename_i room
    split at revealed
    · cases revealed
    · split at revealed
      · cases revealed
      · cases revealed
        have single : t.count (fun r => r.id == requestId && unexpiredIn now .committed r) ≤ 1 :=
          Table.count_le_one fun a b left right => by
            simp [requestKeys,(chosen_iff.mp left).1,(chosen_iff.mp right).1]
        have few : pendingCount now t < maxPendingPairRequests := Nat.lt_of_not_ge room
        exact Nat.le_trans pendingCount_grows (by omega)

section Inversion
variable (hashToken : String → String) (sha256Hex : List Nat → String)

inductive Advance (s : State) : Event → Nat → Stage → Prop where
  | finish (event : Event) (h : Nat) : Advance s event h .finished
  | revealArrive : s.handlers h = .idle → validClientNonce nonce = true →
      Advance s (.revealArrive h requestId nonce) h (.revealing requestId nonce)
  | revealCheck : s.handlers h = .revealing requestId nonce → getPairRequest s.now s.requests requestId = some r →
      r.status = .committed → nonceMatches sha256Hex nonce r.nonceCommit = true →
      Advance s (.revealCheck h) h (.revealChecked r nonce)
  | pollArrive : s.handlers h = .idle → Advance s (.pollArrive h requestId nonce) h (.polling requestId nonce)
  | pollCheck : s.handlers h = .polling requestId nonce → getPairRequest s.now s.requests requestId = some r →
      r.clientNonce = nonce → r.status = .approved → Advance s (.pollCheck h) h (.pollApproved requestId)
  | checkReplaces : s.handlers h = .claimed request → Advance s (.checkReplaces h) h (.replacing request replaces)

inductive Stepped (s : State) : Event → State → Prop where
  | store (db : DB) : Stepped s (.store op) {s with db := db}
  | clock (seconds : Nat) : Stepped s (.clock seconds) {s with now := s.now + seconds}
  | created : requestId ∉ s.drawn →
      createPairRequest s.now s.requests ⟨requestId,sanitizeLabel label,clientId,publicKey,"",commit,ip,.committed,
        startedAt,startedAt + pairRequestTTL⟩ = .ok next →
      Stepped s (.create requestId label clientId publicKey commit ip startedAt) {s with requests := next,drawn := requestId::s.drawn}
  | notCreated : Stepped s (.create requestId label clientId publicKey commit ip startedAt) {s with drawn := requestId::s.drawn}
  | decided : decidePairRequest s.now s.requests requestId approve = .ok next →
      Stepped s (.decide requestId approve) {s with requests := next}
  | notDecided : Stepped s (.decide requestId approve) s
  | advance : Advance sha256Hex s event h stage → Stepped s event (move s h stage)
  | reveal : s.handlers h = .revealChecked request nonce → revealPairRequest s.now s.requests request.id nonce = .ok (next,row) →
      Stepped s (.reveal h) (move {s with requests := next} h .finished)
  | claim : s.handlers h = .pollApproved requestId → claimApprovedPairRequest s.now s.requests requestId = some (next,request) →
      Stepped s (.claim h) (move {s with requests := next} h (.claimed request))
  | mint (db : DB) : s.handlers h = .replacing request replaces →
      Stepped s (.mint h token uuid) {move s h (.minted deviceId replaces) with db := db,mints := request.id::s.mints}
  | reset (db : DB) : Stepped s (.reset h) (move {s with db := db} h .finished)

variable {hashToken sha256Hex}

theorem step_cases (stepped : step hashToken sha256Hex s event = some next) : Stepped sha256Hex s event next := by
  cases event with
  | store op => cases stepped; exact .store _
  | clock seconds => cases stepped; exact .clock seconds
  | create requestId label clientId publicKey commit ip startedAt =>
    obtain ⟨allowed,⟨⟩⟩ := Option.ite_none_left_eq_some.mp stepped
    have fresh : requestId ∉ s.drawn := by
      intro drawn
      simp [drawn] at allowed
    cases created : createPairRequest s.now s.requests ⟨requestId,sanitizeLabel label,clientId,publicKey,"",commit,ip,
        .committed,startedAt,startedAt + pairRequestTTL⟩ with
    | error e => exact .notCreated
    | ok requests => exact .created fresh created
  | decide requestId approve =>
    cases stepped
    cases decided : decidePairRequest s.now s.requests requestId approve with
    | error e => exact .notDecided
    | ok requests => exact .decided decided
  | revealArrive h requestId nonce =>
    simp only [step] at stepped
    split at stepped
    · cases stepped
      split
      · exact .advance (.revealArrive ‹_› ‹_›)
      · exact .advance (.finish _ h)
    · cases stepped
  | revealCheck h =>
    simp only [step] at stepped
    split at stepped
    · rename_i requestId nonce arrived
      split at stepped
      · cases stepped
        exact .advance (.finish _ h)
      · rename_i r found
        split at stepped
        · cases stepped
          exact .advance (.finish _ h)
        · rename_i good
          cases stepped
          simp only [Bool.or_eq_true,bne_iff_ne,ne_eq,Bool.not_eq_true',not_or,not_not,Bool.not_eq_false] at good
          exact .advance (.revealCheck arrived found good.1 good.2)
    · cases stepped
  | reveal h =>
    simp only [step] at stepped
    split at stepped
    · rename_i request nonce checked
      split at stepped
      · cases stepped
        exact .advance (.finish _ h)
      · rename_i requests row revealed
        cases stepped
        exact .reveal checked revealed
    · cases stepped
  | pollArrive h requestId nonce =>
    simp only [step] at stepped
    split at stepped
    · cases stepped
      exact .advance (.pollArrive ‹_›)
    · cases stepped
  | pollCheck h =>
    simp only [step] at stepped
    split at stepped
    · rename_i requestId nonce arrived
      split at stepped
      · cases stepped
        exact .advance (.finish _ h)
      · rename_i r found
        split at stepped
        · cases stepped
          exact .advance (.finish _ h)
        · rename_i good
          cases stepped
          simp only [Bool.or_eq_true,beq_iff_eq,bne_iff_ne,ne_eq,not_or,not_not] at good
          exact .advance (.pollCheck arrived found good.1.2 good.2)
    · cases stepped
  | claim h =>
    simp only [step] at stepped
    split at stepped
    · rename_i requestId polled
      split at stepped
      · cases stepped
        exact .advance (.finish _ h)
      · rename_i requests request claimed
        cases stepped
        exact .claim polled claimed
    · cases stepped
  | checkReplaces h =>
    simp only [step] at stepped
    split at stepped
    · cases stepped
      exact .advance (.checkReplaces ‹_›)
    · cases stepped
  | mint h token uuid =>
    simp only [step] at stepped
    split at stepped
    · rename_i request replaces replacing
      split at stepped
      · cases stepped
        exact .advance (.finish _ h)
      · cases stepped
        exact .mint _ replacing
    · cases stepped
  | reset h =>
    simp only [step] at stepped
    split at stepped
    · cases stepped
      exact .reset _
    · cases stepped
  | fault h => cases stepped; exact .advance (.finish _ h)

end Inversion

def Stage.collecting : Stage → Option PairRequest
  | .claimed request | .replacing request _ => some request
  | _ => none

end RemoteFileExplorer.PairRequests

import RemoteFileExplorer.CertPins
import RemoteFileExplorer.Runs

namespace RemoteFileExplorer.AgentCalls
open PathTexts CertPins

inductive Method where
  | get
  | head
  | post
  | put
  | patch
  | delete
  deriving DecidableEq, Repr

def isSafeToRetryOnFallback : Method → Bool
  | .get | .head => true
  | _ => false

def isSafeUnpinnedPreflight (method : Method) (path : String) : Bool :=
  method == .get && path == "/health" || method == .post && path == "/auth/challenge"

structure Options where
  query : List (String × Option String)
  json : Option String
  text : Option String
  deriving DecidableEq, Repr

def Options.withoutText (o : Options) : Options := ⟨o.query,o.json,none⟩

structure Request where
  address : Option String
  path : String
  query : List (String × String)
  method : Method
  headers : List (String × String)
  bodyText : Option String
  pin : Option Pin
  deriving DecidableEq

-- What the constructor checked: a token is only held beside a pin. Routes are
-- the distinct addresses of the host.
structure Client where
  addresses : List String
  pin : Option Pin
  deviceToken : String
  clientVersion : String
  pinned : deviceToken ≠ "" → pin ≠ none

inductive CallError where
  | certPinMismatch
  | missingCertPin
  | connection
  | unknown
  | badResponse (status : Nat)
  | api (status : Nat) (code : String)
  deriving DecidableEq, Repr

def makeClient (addresses : List String) (fingerprint : Option Text) (deviceToken clientVersion : String) : Except CallError Client :=
  let pin := fingerprint.bind normalizeFingerprint
  if fingerprint ≠ none ∧ pin = none then .error .missingCertPin else
  if pinned : deviceToken ≠ "" → pin ≠ none then .ok ⟨addresses,pin,deviceToken,clientVersion,pinned⟩ else .error .missingCertPin

-- The route a new client starts from. JavaScript has -1 where there is no
-- address at all; both name none.
def startRoute (client : Client) (probeLanFirst : Bool) (lastGoodRoute : Option Nat) : Nat :=
  if probeLanFirst then 0 else min (lastGoodRoute.getD 0) (client.addresses.length - 1)

def send (client : Client) (route : Nat) (method : Method) (path : String) (o : Options) : Except CallError Request :=
  if client.pin = none ∧ isSafeUnpinnedPreflight method path = false then .error .missingCertPin else
  let version := [("X-RFE-Client-Version",client.clientVersion)]
  let kind := if o.json.isSome then [("Content-Type","application/json")] else
    if o.text.isSome then [("Content-Type","application/octet-stream")] else []
  let bearer := if client.pin ≠ none ∧ client.deviceToken ≠ "" then [("Authorization","Bearer " ++ client.deviceToken)] else []
  .ok ⟨client.addresses[route]?,path,o.query.filterMap (fun row => row.2.map (row.1,·)),method,version ++ kind ++ bearer,o.json.or o.text,client.pin⟩

inductive Outcome where
  | response (status : Nat) (body : Option String) (code : Option String)
  | certPinMismatch
  | pinPolicy
  | connection
  | other
  deriving DecidableEq, Repr

inductive Result where
  | body (text : String)
  | failed (error : CallError)
  deriving DecidableEq, Repr

-- An empty body is null and parses; `body` is none where JSON.parse fails, and
-- `code` is the code field of an error object.
def parse (status : Nat) (body code : Option String) : Result :=
  if 200 ≤ status ∧ status < 300 then body.elim (.failed (.badResponse status)) .body else
  .failed (.api status (code.getD "UNKNOWN"))

inductive Stage where
  | first (route : Nat) (request : Request)
  | trying (source route : Nat) (request : Request)
  | done (result : Result)
  deriving DecidableEq

structure Attempt where
  route : Nat
  request : Request
  outcome : Outcome
  deriving DecidableEq

structure Call where
  method : Method
  path : String
  o : Options
  finished : List Attempt
  stage : Stage
  deriving DecidableEq

structure State where
  addrIndex : Nat
  lastGoodRoute : Option Nat
  calls : List Call
  deriving DecidableEq

inductive Event where
  | start (method : Method) (path : String) (o : Options)
  | answer (call : Nat) (outcome : Outcome)
  deriving DecidableEq, Repr

-- The next turn of the fallback loop, from the given index upwards.
def nextRoute (count source from_ : Nat) : Option Nat :=
  let i := if from_ = source then from_ + 1 else from_
  if i < count then some i else none

section Step
variable (client : Client)

def begun (s : State) (method : Method) (path : String) (o : Options) : Call :=
  match send client s.addrIndex method path o with
  | .error e => ⟨method,path,o,[],.done (.failed e)⟩
  | .ok request => ⟨method,path,o,[],.first s.addrIndex request⟩

-- The request on another route has no text body.
def turn (call : Call) (source from_ : Nat) : Stage :=
  match nextRoute client.addresses.length source from_ with
  | none => .done (.failed .connection)
  | some route =>
    match send client route call.method call.path call.o.withoutText with
    | .error e => .done (.failed e)
    | .ok request => .trying source route request

def afterFirst (s : State) (call : Call) (outcome : Outcome) : Stage :=
  match outcome with
  | .response status body code => .done (parse status body code)
  | .certPinMismatch => .done (.failed .certPinMismatch)
  | .pinPolicy => .done (.failed .missingCertPin)
  | .other => .done (.failed .unknown)
  | .connection =>
    if isSafeToRetryOnFallback call.method = false ∨ client.addresses.length < 2 then .done (.failed .connection) else
    turn client call s.addrIndex 0

def afterTrying (call : Call) (source route : Nat) (outcome : Outcome) : Stage :=
  match outcome with
  | .response status body code => .done (parse status body code)
  | .certPinMismatch => .done (.failed .certPinMismatch)
  | .pinPolicy => .done (.failed .unknown)
  | .other => .done (.failed .unknown)
  | .connection => turn client call source (route + 1)

def adopt (s : State) (route : Nat) : Outcome → State
  | .response .. => {s with addrIndex := route,lastGoodRoute := some route}
  | _ => s

def step (s : State) : Event → Option State
  | .start method path o => some {s with calls := s.calls ++ [begun client s method path o]}
  | .answer k outcome =>
    match s.calls[k]? with
    | none => none
    | some call =>
      match call.stage with
      | .done _ => none
      | .first route request =>
        let next := {call with finished := call.finished ++ [⟨route,request,outcome⟩],stage := afterFirst client s call outcome}
        some {s with calls := s.calls.set k next}
      | .trying source route request =>
        let next := {call with finished := call.finished ++ [⟨route,request,outcome⟩],stage := afterTrying client call source route outcome}
        some {adopt s route outcome with calls := s.calls.set k next}

def initial (probeLanFirst : Bool) (lastGoodRoute : Option Nat) : State := ⟨startRoute client probeLanFirst lastGoodRoute,lastGoodRoute,[]⟩

end Step

def requests (call : Call) : List Request :=
  call.finished.map Attempt.request ++
    match call.stage with
    | .first _ request | .trying _ _ request => [request]
    | .done _ => []

def bearer (request : Request) : Bool := request.headers.any (fun header => header.1 == "Authorization")

-- A bearer token travels with a pin only.
def Sealed (request : Request) : Prop := bearer request = true → ∃ pin, request.pin = some pin

section Calls
variable {client : Client} {s next : State} {call : Call} {event : Event}

theorem send_sealed (sent : send client route method path o = .ok request) : Sealed request := by
  unfold send at sent
  split at sent
  · cases sent
  · cases sent
    intro carries
    cases known : client.pin with
    | some pin => exact ⟨pin,rfl⟩
    | none =>
      exfalso
      simp only [bearer,known,ne_eq,not_true_eq_false,false_and,if_false,List.append_nil] at carries
      split at carries
      · simp at carries
      · split at carries <;> simp at carries

theorem send_refused (refused : send client route method path o = .error e) : e = .missingCertPin := by
  unfold send at refused
  split at refused
  · cases refused; rfl
  · cases refused

theorem nextRoute_some (found : nextRoute count source from_ = some route) :
    route < count ∧ ∀ j, j < route → j < from_ ∨ j = source := by
  unfold nextRoute at found
  by_cases here : from_ = source <;> by_cases inside : (if from_ = source then from_ + 1 else from_) < count
  all_goals simp only [here,if_true,if_false] at inside found
  all_goals simp only [inside,if_true,if_false,reduceCtorEq,Option.some.injEq] at found
  all_goals subst found
  all_goals exact ⟨inside,fun j below => by omega⟩

theorem nextRoute_none (atEnd : nextRoute count source from_ = none) : ∀ j, j < count → j < from_ ∨ j = source := by
  intro j below
  unfold nextRoute at atEnd
  by_cases here : from_ = source <;> by_cases inside : (if from_ = source then from_ + 1 else from_) < count
  all_goals simp only [here,if_true,if_false] at inside atEnd
  all_goals simp only [inside,if_true,if_false,reduceCtorEq] at atEnd
  all_goals omega

theorem turn_cases (client : Client) (call : Call) (source from_ : Nat) :
    (turn client call source from_ = .done (.failed .connection) ∧ nextRoute client.addresses.length source from_ = none) ∨
    turn client call source from_ = .done (.failed .missingCertPin) ∨
    ∃ route request, turn client call source from_ = .trying source route request ∧ Sealed request ∧
      nextRoute client.addresses.length source from_ = some route := by
  cases chosen : nextRoute client.addresses.length source from_ with
  | none =>
    left
    simp [turn,chosen]
  | some route =>
    right
    cases sent : send client route call.method call.path call.o.withoutText with
    | error e =>
      left
      simp [turn,chosen,sent,send_refused sent]
    | ok request => exact .inr ⟨route,request,by simp [turn,chosen,sent],send_sealed sent,rfl⟩

theorem parse_received (status : Nat) (body code : Option String) : parse status body code ≠ .failed .connection := by
  unfold parse
  split
  · cases body <;> simp
  · simp

def Stands (call : Call) : Prop :=
  match call.stage with
  | .first _ request => call.finished = [] ∧ Sealed request
  | .trying _ _ request => isSafeToRetryOnFallback call.method = true ∧
      (∀ a ∈ call.finished, a.outcome = .connection ∧ Sealed a.request) ∧ Sealed request
  | .done result => (∀ a ∈ call.finished, Sealed a.request) ∧ (isSafeToRetryOnFallback call.method = false → call.finished.length ≤ 1) ∧
      (∀ a ∈ call.finished.dropLast, a.outcome = .connection) ∧
      (result = .failed .connection → ∀ a ∈ call.finished, a.outcome = .connection)

def Covers (client : Client) (call : Call) : Prop :=
  match call.stage with
  | .first _ _ => True
  | .trying source route _ => ∀ j, j < client.addresses.length → j < route ∨ j = source → ∃ a ∈ call.finished, a.route = j
  | .done result => isSafeToRetryOnFallback call.method = true → result = .failed .connection →
      ∀ j, j < client.addresses.length → ∃ a ∈ call.finished, a.route = j

theorem begun_stands (client : Client) (s : State) (method : Method) (path : String) (o : Options) : Stands (begun client s method path o) := by
  unfold begun
  cases sent : send client s.addrIndex method path o with
  | error e => simp [Stands]
  | ok request => exact ⟨rfl,send_sealed sent⟩

theorem begun_covers (client : Client) (s : State) (method : Method) (path : String) (o : Options) : Covers client (begun client s method path o) := by
  unfold begun
  cases sent : send client s.addrIndex method path o with
  | error e =>
    intro _ failed
    rw [send_refused sent] at failed
    cases failed
  | ok request => trivial

theorem ended_stands {before : List Attempt} {attempt : Attempt} {result : Result} (failed : ∀ a ∈ before, a.outcome = .connection ∧ Sealed a.request)
    (sealed : Sealed attempt.request) (single : isSafeToRetryOnFallback call.method = false → before = [])
    (honest : result = .failed .connection → attempt.outcome = .connection) :
    Stands {call with finished := before ++ [attempt],stage := .done result} := by
  refine ⟨?_,?_,?_,?_⟩
  · intro a member
    rcases List.mem_append.mp member with old | new
    · exact (failed a old).2
    · rw [List.mem_singleton.mp new]
      exact sealed
  · intro unsafe_
    simp [single unsafe_]
  · intro a member
    rw [List.dropLast_concat] at member
    exact (failed a member).1
  · intro lost a member
    rcases List.mem_append.mp member with old | new
    · exact (failed a old).1
    · rw [List.mem_singleton.mp new]
      exact honest lost

theorem turned_stands {before : List Attempt} {attempt : Attempt} (failed : ∀ a ∈ before, a.outcome = .connection ∧ Sealed a.request)
    (sealed : Sealed attempt.request) (lost : attempt.outcome = .connection) (safe : isSafeToRetryOnFallback call.method = true) (source from_ : Nat) :
    Stands {call with finished := before ++ [attempt],stage := turn client call source from_} := by
  have unsafe_ : isSafeToRetryOnFallback call.method = false → before = [] := by
    intro different
    rw [safe] at different
    cases different
  rcases turn_cases client call source from_ with ⟨ended,_⟩ | ended | ⟨route,request,moved,sent,_⟩
  · rw [ended]
    exact ended_stands failed sealed unsafe_ (fun _ => lost)
  · rw [ended]
    exact ended_stands failed sealed unsafe_ (fun _ => lost)
  · rw [moved]
    refine ⟨safe,?_,sent⟩
    intro a member
    rcases List.mem_append.mp member with old | new
    · exact failed a old
    · rw [List.mem_singleton.mp new]
      exact ⟨lost,sealed⟩

theorem first_stands (stands : Stands call) (at_ : call.stage = .first route request) (outcome : Outcome) :
    Stands {call with finished := call.finished ++ [⟨route,request,outcome⟩],stage := afterFirst client s call outcome} := by
  rw [Stands,at_] at stands
  obtain ⟨none,sealed⟩ := stands
  have failed : ∀ a ∈ call.finished, a.outcome = .connection ∧ Sealed a.request := by simp [none]
  cases outcome with
  | connection =>
    simp only [afterFirst]
    split
    · exact ended_stands failed sealed (fun _ => none) (fun _ => rfl)
    · rename_i retried
      exact turned_stands failed sealed rfl (by simpa using (not_or.mp retried).1) s.addrIndex 0
  | response status body code =>
    exact ended_stands failed sealed (fun _ => none) (fun lost => absurd lost (parse_received status body code))
  | certPinMismatch | pinPolicy | other => exact ended_stands failed sealed (fun _ => none) nofun

theorem trying_stands (stands : Stands call) (at_ : call.stage = .trying source route request) (outcome : Outcome) :
    Stands {call with finished := call.finished ++ [⟨route,request,outcome⟩],stage := afterTrying client call source route outcome} := by
  rw [Stands,at_] at stands
  obtain ⟨safe,failed,sealed⟩ := stands
  have single : isSafeToRetryOnFallback call.method = false → call.finished = [] := by
    intro different
    rw [safe] at different
    cases different
  cases outcome with
  | connection => exact turned_stands failed sealed rfl safe source (route + 1)
  | response status body code =>
    exact ended_stands failed sealed single (fun lost => absurd lost (parse_received status body code))
  | certPinMismatch | pinPolicy | other => exact ended_stands failed sealed single nofun

theorem turned_covers {before : List Attempt} {attempt : Attempt} {source from_ : Nat}
    (failed : ∀ j, j < client.addresses.length → j < from_ ∨ j = source → ∃ a ∈ before ++ [attempt], a.route = j) :
    Covers client {call with finished := before ++ [attempt],stage := turn client call source from_} := by
  rcases turn_cases client call source from_ with ⟨ended,atEnd⟩ | ended | ⟨route,request,moved,_,chosen⟩
  · rw [ended]
    intro _ _ j inside
    exact failed j inside (nextRoute_none atEnd j inside)
  · rw [ended]
    intro _ lost
    cases lost
  · rw [moved]
    intro j inside below
    rcases below with before | first
    · exact failed j inside ((nextRoute_some chosen).2 j before)
    · exact failed j inside (.inr first)

theorem ended_covers {finished : List Attempt} {result : Result} (other : result ≠ .failed .connection) :
    Covers client {call with finished := finished,stage := .done result} :=
  fun _ lost => absurd lost other

theorem first_covers (steady : isSafeToRetryOnFallback call.method = true → s.addrIndex = route)
    (inside : s.addrIndex < client.addresses.length ∨ client.addresses = []) (outcome : Outcome) :
    Covers client {call with finished := call.finished ++ [⟨route,request,outcome⟩],stage := afterFirst client s call outcome} := by
  cases outcome with
  | connection =>
    simp only [afterFirst]
    split
    · rename_i alone
      intro safe _ j within
      refine ⟨⟨route,request,.connection⟩,List.mem_append_right _ List.mem_cons_self,?_⟩
      have same := steady safe
      rcases alone with unsafe_ | few
      · rw [safe] at unsafe_
        cases unsafe_
      · rcases inside with below | empty
        · have here : route < 2 := by omega
          show route = j
          omega
        · rw [empty] at within
          cases within
    · rename_i retried
      apply turned_covers
      intro j _ place
      rcases place with below | first
      · cases below
      · refine ⟨⟨route,request,.connection⟩,List.mem_append_right _ List.mem_cons_self,?_⟩
        rw [first]
        exact (steady (by simpa using (not_or.mp retried).1)).symm
  | response status body code => exact ended_covers (parse_received status body code)
  | certPinMismatch | pinPolicy | other => exact ended_covers (by simp)

theorem trying_covers (covers : Covers client call) (at_ : call.stage = .trying source route request) (outcome : Outcome) :
    Covers client {call with finished := call.finished ++ [⟨route,request,outcome⟩],stage := afterTrying client call source route outcome} := by
  rw [Covers,at_] at covers
  cases outcome with
  | connection =>
    apply turned_covers
    intro j within place
    by_cases here : j = route
    · exact ⟨⟨route,request,.connection⟩,List.mem_append_right _ List.mem_cons_self,here.symm⟩
    · obtain ⟨a,member,same⟩ := covers j within (by omega)
      exact ⟨a,List.mem_append_left _ member,same⟩
  | response status body code => exact ended_covers (parse_received status body code)
  | certPinMismatch | pinPolicy | other => exact ended_covers (by simp)

end Calls

-- When a GET or HEAD call falls back, the route index is still the one it
-- first sent on.
def steady (s : State) : Event → Bool
  | .answer k .connection =>
    match s.calls[k]? with
    | some ⟨method,_,_,_,.first route _⟩ => !isSafeToRetryOnFallback method || s.addrIndex == route
    | _ => true
  | _ => true

section System
variable {client : Client} {s next : State} {event : Event}

theorem step_calls (stepped : step client s event = some next) :
    (∃ method path o, event = .start method path o ∧ next = {s with calls := s.calls ++ [begun client s method path o]}) ∨
    (∃ k outcome call route request, event = .answer k outcome ∧ s.calls[k]? = some call ∧ call.stage = .first route request ∧
      next = {s with calls := s.calls.set k {call with finished := call.finished ++ [⟨route,request,outcome⟩],stage := afterFirst client s call outcome}}) ∨
    ∃ k outcome call source route request, event = .answer k outcome ∧ s.calls[k]? = some call ∧ call.stage = .trying source route request ∧
      next = {adopt s route outcome with
        calls := s.calls.set k {call with finished := call.finished ++ [⟨route,request,outcome⟩],stage := afterTrying client call source route outcome}} := by
  cases event with
  | start method path o =>
    cases stepped
    exact .inl ⟨method,path,o,rfl,rfl⟩
  | answer k outcome =>
    simp only [step] at stepped
    cases known : s.calls[k]? with
    | none => simp [known] at stepped
    | some call =>
      simp only [known] at stepped
      cases at_ : call.stage with
      | done result => simp [at_] at stepped
      | first route request =>
        simp only [at_] at stepped
        cases stepped
        exact .inr (.inl ⟨k,outcome,call,route,request,rfl,known,at_,rfl⟩)
      | trying source route request =>
        simp only [at_] at stepped
        cases stepped
        exact .inr (.inr ⟨k,outcome,call,source,route,request,rfl,known,at_,rfl⟩)

theorem set_holds {calls : List Call} {holds : Call → Prop} (all : ∀ call ∈ calls, holds call) (changed : holds call) :
    ∀ other ∈ calls.set k call, holds other := by
  intro other member
  rcases List.mem_or_eq_of_mem_set member with old | new
  · exact all other old
  · rw [new]
    exact changed

theorem step_stands (all : ∀ call ∈ s.calls, Stands call) (stepped : step client s event = some next) : ∀ call ∈ next.calls, Stands call := by
  rcases step_calls stepped with ⟨method,path,o,_,rfl⟩ | ⟨k,outcome,call,route,request,_,known,at_,rfl⟩ |
    ⟨k,outcome,call,source,route,request,_,known,at_,rfl⟩
  · intro call member
    rcases List.mem_append.mp member with old | new
    · exact all call old
    · rw [List.mem_singleton.mp new]
      exact begun_stands client s method path o
  · exact set_holds all (first_stands (all call (List.mem_of_getElem? known)) at_ outcome)
  · exact set_holds all (trying_stands (all call (List.mem_of_getElem? known)) at_ outcome)

def Placed (client : Client) (s : State) : Prop :=
  (s.addrIndex < client.addresses.length ∨ client.addresses = []) ∧
    ∀ call ∈ s.calls, ∀ source route request, call.stage = .trying source route request → route < client.addresses.length

theorem turned_placed (turned : turn client call source from_ = .trying other route request) : route < client.addresses.length := by
  rcases turn_cases client call source from_ with ⟨ended,_⟩ | ended | ⟨chosen,sent,moved,_,found⟩
  · rw [ended] at turned
    cases turned
  · rw [ended] at turned
    cases turned
  · rw [moved] at turned
    cases turned
    exact (nextRoute_some found).1

theorem step_placed (placed : Placed client s) (stepped : step client s event = some next) : Placed client next := by
  obtain ⟨inside,all⟩ := placed
  rcases step_calls stepped with ⟨method,path,o,_,rfl⟩ | ⟨k,outcome,call,route,request,_,known,at_,rfl⟩ |
    ⟨k,outcome,call,source,route,request,_,known,at_,rfl⟩
  · refine ⟨inside,?_⟩
    intro call member
    rcases List.mem_append.mp member with old | new
    · exact all call old
    · rw [List.mem_singleton.mp new]
      intro source route request trying
      unfold begun at trying
      split at trying <;> cases trying
  · refine ⟨inside,?_⟩
    refine set_holds all ?_
    intro source other sent trying
    cases outcome with
    | connection =>
      simp only [afterFirst] at trying
      split at trying
      · cases trying
      · exact turned_placed trying
    | response | certPinMismatch | pinPolicy | other => cases trying
  · have here := all call (List.mem_of_getElem? known) source route request at_
    constructor
    · cases outcome with
      | response status body code => exact .inl here
      | certPinMismatch | pinPolicy | connection | other => exact inside
    · refine set_holds all ?_
      intro source other sent trying
      cases outcome with
      | connection => exact turned_placed trying
      | response | certPinMismatch | pinPolicy | other => cases trying

theorem step_covers (placed : Placed client s) (all : ∀ call ∈ s.calls, Covers client call) (meets : steady s event = true)
    (stepped : step client s event = some next) : ∀ call ∈ next.calls, Covers client call := by
  rcases step_calls stepped with ⟨method,path,o,_,rfl⟩ | ⟨k,outcome,call,route,request,rfl,known,at_,rfl⟩ |
    ⟨k,outcome,call,source,route,request,_,known,at_,rfl⟩
  · intro call member
    rcases List.mem_append.mp member with old | new
    · exact all call old
    · rw [List.mem_singleton.mp new]
      exact begun_covers client s method path o
  · refine set_holds all ?_
    cases outcome with
    | connection =>
      refine first_covers ?_ placed.1 .connection
      intro safe
      obtain ⟨method,path,o,finished,stage⟩ := call
      cases at_
      simpa [steady,known,safe] using meets
    | response status body code => exact ended_covers (parse_received status body code)
    | certPinMismatch | pinPolicy | other => exact ended_covers (by simp)
  · exact set_holds all (trying_covers (all call (List.mem_of_getElem? known)) at_ outcome)

theorem initial_placed (client : Client) (probeLanFirst : Bool) (lastGoodRoute : Option Nat) : Placed client (initial client probeLanFirst lastGoodRoute) := by
  refine ⟨?_,by simp [initial]⟩
  by_cases empty : client.addresses = []
  · exact .inr empty
  · left
    have some := List.length_pos_iff.mpr empty
    simp only [initial,startRoute]
    split <;> omega

end System

section Results
variable {client : Client} {last : State} {events : List Event}

theorem stands_once (stands : Stands call) (unsafe_ : isSafeToRetryOnFallback call.method = false) : (requests call).length ≤ 1 := by
  rw [Stands] at stands
  unfold requests
  cases at_ : call.stage with
  | first route request =>
    rw [at_] at stands
    simp [stands.1]
  | trying source route request =>
    rw [at_] at stands
    rw [stands.1] at unsafe_
    cases unsafe_
  | done result =>
    rw [at_] at stands
    simpa using stands.2.1 unsafe_

theorem stands_sealed (stands : Stands call) : ∀ request ∈ requests call, Sealed request := by
  rw [Stands] at stands
  intro request member
  rcases List.mem_append.mp member with finished | flying
  · obtain ⟨a,within,rfl⟩ := List.mem_map.mp finished
    cases at_ : call.stage with
    | first route request =>
      rw [at_] at stands
      rw [stands.1] at within
      cases within
    | trying source route request =>
      rw [at_] at stands
      exact (stands.2.1 a within).2
    | done result =>
      rw [at_] at stands
      exact stands.1 a within
  · cases at_ : call.stage with
    | first route sent =>
      rw [at_] at stands flying
      rw [List.mem_singleton.mp flying]
      exact stands.2
    | trying source route sent =>
      rw [at_] at stands flying
      rw [List.mem_singleton.mp flying]
      exact stands.2.2
    | done result =>
      rw [at_] at flying
      cases flying

theorem stands_mismatch (stands : Stands call) (split : call.finished = before ++ a::after)
    (mismatch : a.outcome = .certPinMismatch) : after = [] ∧ ∃ result, call.stage = .done result := by
  have member : a ∈ call.finished := by rw [split]; simp
  rw [Stands] at stands
  cases at_ : call.stage with
  | first route request =>
    rw [at_] at stands
    rw [stands.1] at member
    cases member
  | trying source route request =>
    rw [at_] at stands
    have lost := (stands.2.1 a member).1
    rw [mismatch] at lost
    cases lost
  | done result =>
    rw [at_] at stands
    refine ⟨?_,result,rfl⟩
    cases after with
    | nil => rfl
    | cons other rest =>
      have early : a ∈ call.finished.dropLast := by
        rw [split,List.dropLast_append_of_ne_nil (by simp),List.dropLast_cons_of_ne_nil (by simp)]
        simp
      have lost := stands.2.2.1 a early
      rw [mismatch] at lost
      cases lost

theorem route_fallback_safe (client : Client) (probeLanFirst : Bool) (lastGoodRoute : Option Nat)
    (ran : Runs.run (step client) (initial client probeLanFirst lastGoodRoute) events = some last) :
    (∀ call ∈ last.calls,
      (isSafeToRetryOnFallback call.method = false → (requests call).length ≤ 1) ∧
      (∀ before a after, call.finished = before ++ a::after → a.outcome = .certPinMismatch → after = [] ∧ ∃ result, call.stage = .done result) ∧
      ∀ request ∈ requests call, bearer request = true → ∃ pin, request.pin = some pin) ∧
    (Runs.Every (step client) (fun s event => steady s event = true) (initial client probeLanFirst lastGoodRoute) events →
      ∀ call ∈ last.calls, isSafeToRetryOnFallback call.method = true → call.stage = .done (.failed .connection) →
        (∀ route < client.addresses.length, ∃ a ∈ call.finished, a.route = route) ∧ ∀ a ∈ call.finished, a.outcome = .connection) := by
  have stands : ∀ call ∈ last.calls, Stands call :=
    Runs.run_preserves (fun s event next all stepped => step_stands all stepped) (fun call member => by cases member) ran
  constructor
  · intro call member
    have held := stands call member
    exact ⟨stands_once held,fun before a after split => stands_mismatch held split,stands_sealed held⟩
  · intro calm call member safe failed
    have covered : Placed client last ∧ ∀ call ∈ last.calls, Covers client call := by
      refine Runs.run_preserves_when (fun s => Placed client s ∧ ∀ call ∈ s.calls, Covers client call) ?_ ?_ calm ran
      · intro s event next valid meets stepped
        exact ⟨step_placed valid.1 stepped,step_covers valid.1 valid.2 meets stepped⟩
      · exact ⟨initial_placed client probeLanFirst lastGoodRoute,nofun⟩
    have tried := covered.2 call member
    have held := stands call member
    rw [Covers,failed] at tried
    rw [Stands,failed] at held
    exact ⟨tried safe rfl,held.2.2.2 rfl⟩

def twoRoutes : Client := ⟨["192.168.1.5:8443","100.64.0.9:8443"],none,"","rn",by simp⟩
def plain : Options := ⟨[],none,none⟩
def probe : Event := .start .get "/health" plain

def lostBoth : List Event := [probe,.answer 0 .connection,.answer 0 .connection]

theorem both_routes_tried : ∃ last, Runs.run (step twoRoutes) (initial twoRoutes true none) lostBoth = some last ∧
    last.calls.map Call.stage = [.done (.failed .connection)] ∧ ∀ call ∈ last.calls, ∀ route < 2, ∃ a ∈ call.finished, a.route = route := by
  have calm : Runs.Every (step twoRoutes) (fun s event => steady s event = true) (initial twoRoutes true none) lostBoth := by decide
  refine ⟨_,rfl,rfl,?_⟩
  intro call member
  have tried := (route_fallback_safe twoRoutes true none (show Runs.run _ _ lostBoth = some _ from rfl)).2 calm call member
  obtain rfl := List.mem_singleton.mp member
  exact (tried rfl rfl).1

-- Two calls start on the first route. The first one moves the index to the
-- second route before the other falls back, which then skips that route.
theorem moved_route_skipped : ∃ last call,
    Runs.run (step twoRoutes) (initial twoRoutes true none)
      [probe,probe,.answer 0 .connection,.answer 0 (.response 200 (some "{}") none),.answer 1 .connection,.answer 1 .connection] = some last ∧
    last.calls[1]? = some call ∧ call.method = .get ∧ call.stage = .done (.failed .connection) ∧ ¬ ∃ a ∈ call.finished, a.route = 1 := by
  refine ⟨_,_,rfl,rfl,rfl,rfl,?_⟩
  decide

end Results

end RemoteFileExplorer.AgentCalls

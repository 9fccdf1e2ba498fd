import RemoteFileExplorer.KeyedEntries
import RemoteFileExplorer.RemotePaths
import RemoteFileExplorer.Runs

namespace RemoteFileExplorer.OfflineVaults
open Runs CodeUnits RemotePaths KeyedEntries

def maxOfflineFileBytes : Nat := 50 * 1024 * 1024
def maxOfflineCacheBytes : Nat := 500 * 1024 * 1024

structure Entry where
  path : Units
  isDir : Bool
  size : Option Nat
  deriving DecidableEq

def Entry.bytes (e : Entry) : Nat := e.size.getD 0

-- A host and a path; the vault holds the size of each body.
abbrev Slot := String × Units
abbrev Vault := Entries Slot Nat

def sizes (list : List (Slot × Nat)) : Nat := (list.map Prod.snd).sum

def totalBytes (vault : Vault) : Nat := sizes vault.list

abbrev Pins := String → Units → Bool

def wantsOfflineCopy (isPinnedFolder : Pins) (host : String) (e : Entry) : Bool :=
  !e.isDir && e.bytes ≤ maxOfflineFileBytes && isPinnedFolder host (parentDirOf e.path)

-- Where a call of keepOfflineCopy stands: before vault.has, before
-- vault.totalBytes, before vault.put, or over with what it returned.
inductive Phase where
  | asked
  | looked (had : Bool)
  | measured (had : Bool) (total : Nat)
  | done (kept : Bool)
  deriving DecidableEq

structure Keep where
  host : String
  entry : Entry
  replace : Bool
  phase : Phase
  deriving DecidableEq

def Keep.slot (keep : Keep) : Slot := (keep.host,keep.entry.path)

inductive Stage where
  | measuring
  | going
  | fetching
  | finished
  deriving DecidableEq

structure Precache where
  host : String
  entries : List Entry
  used : Nat
  fetched : Nat
  stage : Stage
  deriving DecidableEq

structure State where
  vault : Vault
  keeps : Nat → Option Keep
  precaches : Nat → Option Precache

def start (vault : Vault) : State := ⟨vault,fun _ => none,fun _ => none⟩

def put {α : Type} (f : Nat → Option α) (n : Nat) (a : α) : Nat → Option α := fun k => if k = n then some a else f k

def keepOfflineCopy (s : State) (i : Nat) (isPinnedFolder : Pins) (host : String) (e : Entry) (replace : Bool) : State :=
  { s with keeps := put s.keeps i ⟨host,e,replace,if wantsOfflineCopy isPinnedFolder host e then .asked else .done false⟩ }

-- fetchFile calls keepOfflineCopy and does not wait for it: with `replace` after
-- a fetch, without it when the preview is there already, and not at all when
-- the file came from the vault.
structure Started where
  i : Nat
  isPinnedFolder : Pins
  replace : Bool

inductive Event where
  | keeps (i : Nat) (isPinnedFolder : Pins) (host : String) (e : Entry) (replace : Bool)
  | looks (i : Nat) (ok : Bool)
  | measures (i : Nat) (ok : Bool)
  | puts (i : Nat) (ok : Bool)
  | precaches (p : Nat) (host : String) (entries : List Entry)
  | totals (p : Nat) (ok : Bool)
  | considers (p : Nat) (ok : Bool)
  | fetches (p : Nat) (ok : Bool) (keep : Option Started)

def Keep.look (keep : Keep) (vault : Vault) (ok : Bool) : Phase :=
  if !ok then .done false else
  if !keep.replace && (vault.get keep.slot).isSome then .done false else .looked (vault.get keep.slot).isSome

-- A replaced body is not added to the total, whatever the sizes.
def Keep.measure (keep : Keep) (vault : Vault) (had ok : Bool) : Phase :=
  if !ok then .done false else
  if totalBytes vault + (if had then 0 else keep.entry.bytes) > maxOfflineCacheBytes then .done false else .measured had (totalBytes vault)

def Precache.consider (precache : Precache) (vault : Vault) (ok : Bool) : Precache :=
  match precache.entries with
  | [] => { precache with stage := .finished }
  | e::rest =>
    if e.isDir || maxOfflineFileBytes < e.bytes then { precache with entries := rest } else
    if !ok || (vault.get (precache.host,e.path)).isSome then { precache with entries := rest } else
    if precache.used + e.bytes > maxOfflineCacheBytes then { precache with entries := rest } else { precache with stage := .fetching }

def step (s : State) : Event → Option State
  | .keeps i isPinnedFolder host e replace => if (s.keeps i).isSome then none else some (keepOfflineCopy s i isPinnedFolder host e replace)
  | .looks i ok =>
    match s.keeps i with
    | some ⟨host,e,replace,.asked⟩ =>
      some { s with keeps := put s.keeps i ⟨host,e,replace,Keep.look ⟨host,e,replace,.asked⟩ s.vault ok⟩ }
    | _ => none
  | .measures i ok =>
    match s.keeps i with
    | some ⟨host,e,replace,.looked had⟩ =>
      some { s with keeps := put s.keeps i ⟨host,e,replace,Keep.measure ⟨host,e,replace,.looked had⟩ s.vault had ok⟩ }
    | _ => none
  | .puts i ok =>
    match s.keeps i with
    | some ⟨host,e,replace,.measured _ _⟩ =>
      some { s with
        keeps := put s.keeps i ⟨host,e,replace,.done ok⟩
        vault := if ok then s.vault.set (host,e.path) e.bytes else s.vault }
    | _ => none
  | .precaches p host entries => if (s.precaches p).isSome then none else some { s with precaches := put s.precaches p ⟨host,entries,0,0,.measuring⟩ }
  | .totals p ok =>
    match s.precaches p with
    | some ⟨host,entries,_,fetched,.measuring⟩ =>
      some { s with precaches := put s.precaches p ⟨host,entries,totalBytes s.vault,fetched,if ok then .going else .finished⟩ }
    | _ => none
  | .considers p ok =>
    match s.precaches p with
    | some ⟨host,entries,used,fetched,.going⟩ =>
      some { s with precaches := put s.precaches p (Precache.consider ⟨host,entries,used,fetched,.going⟩ s.vault ok) }
    | _ => none
  | .fetches p ok keep =>
    match s.precaches p with
    | some ⟨host,e::rest,used,fetched,.fetching⟩ =>
      let used := if ok then used + e.bytes else used
      let fetched := if ok then fetched + 1 else fetched
      let s := { s with precaches := put s.precaches p ⟨host,rest,used,fetched,.going⟩ }
      match keep with
      | none => some s
      | some ⟨i,isPinnedFolder,replace⟩ => if !ok || (s.keeps i).isSome then none else some (keepOfflineCopy s i isPinnedFolder host e replace)
    | _ => none

-- A body is put in the vault that its call has seen, and one that replaces
-- another finds room for the difference.
def Fits (s : State) (keep : Keep) : Prop :=
  match keep.phase with
  | .measured had total => totalBytes s.vault = total ∧ (s.vault.get keep.slot).isSome = had ∧
      (had = true → total + keep.entry.bytes ≤ maxOfflineCacheBytes + (s.vault.get keep.slot).getD 0)
  | .asked | .looked _ | .done _ => True

instance (s : State) (keep : Keep) : Decidable (Fits s keep) := by
  unfold Fits
  split <;> infer_instance

def Roomy (s : State) : Event → Prop
  | .puts i ok => ok = true → ∀ keep ∈ s.keeps i, Fits s keep
  | .keeps _ _ _ _ _ | .looks _ _ | .measures _ _ | .precaches _ _ _ | .totals _ _ | .considers _ _ | .fetches _ _ _ => True

instance (s : State) (event : Event) : Decidable (Roomy s event) := by
  cases event <;> unfold Roomy <;> infer_instance

theorem sizes_put (distinct : (list.map Prod.fst).Nodup) (slot : Slot) (bytes : Nat) :
    sizes (KeyedEntries.put slot bytes list) + (find list slot).getD 0 = sizes list + bytes := by
  induction list with
  | nil => simp [KeyedEntries.put,sizes]
  | cons entry rest ih =>
    rw [List.map_cons,List.nodup_cons] at distinct
    rw [find_first]
    simp only [KeyedEntries.put]
    split
    · rename_i same
      rw [if_pos same.symm]
      simp only [sizes,List.map_cons,List.sum_cons,Option.getD_some]
      omega
    · rename_i differs
      have after := ih distinct.2
      rw [if_neg fun same => differs same.symm]
      simp only [sizes,List.map_cons,List.sum_cons] at after ⊢
      omega

theorem total_set (vault : Vault) (slot : Slot) (bytes : Nat) :
    totalBytes (vault.set slot bytes) + (vault.get slot).getD 0 = totalBytes vault + bytes := sizes_put vault.distinct slot bytes

section Steps
variable {s next : State}

def Measured (s : State) : Prop :=
  ∀ i keep had total, s.keeps i = some keep → keep.phase = .measured had total → total + (if had then 0 else keep.entry.bytes) ≤ maxOfflineCacheBytes

structure Sound (s : State) : Prop where
  within : totalBytes s.vault ≤ maxOfflineCacheBytes
  measured : Measured s

theorem put_parts {α : Type} {f : Nat → Option α} {n k : Nat} {a b : α} (found : put f n a k = some b) : (k = n ∧ b = a) ∨ (k ≠ n ∧ f k = some b) := by
  unfold put at found
  split at found
  · cases found
    exact .inl ⟨‹_›,rfl⟩
  · exact .inr ⟨‹_›,found⟩

theorem keep_measured (measured : Measured s) {i : Nat} {keep : Keep}
    (room : ∀ had total, keep.phase = .measured had total → total + (if had then 0 else keep.entry.bytes) ≤ maxOfflineCacheBytes)
    (vault : Vault) : Measured { s with keeps := put s.keeps i keep,vault := vault } := by
  intro k other had total found at_
  rcases put_parts found with ⟨_,rfl⟩ | ⟨_,kept⟩
  · exact room had total at_
  · exact measured k other had total kept at_

theorem started_measured (measured : Measured s) (i : Nat) (isPinnedFolder : Pins) (host : String) (e : Entry) (replace : Bool) :
    Measured (keepOfflineCopy s i isPinnedFolder host e replace) := by
  refine keep_measured measured ?_ s.vault
  intro had total at_
  split at at_ <;> cases at_

theorem measure_room (keep : Keep) (vault : Vault) (looked ok : Bool) (at_ : keep.measure vault looked ok = .measured had total) :
    total + (if had then 0 else keep.entry.bytes) ≤ maxOfflineCacheBytes := by
  unfold Keep.measure at at_
  cases ok with
  | false => cases at_
  | true =>
    by_cases exceeds : totalBytes vault + (if looked then 0 else keep.entry.bytes) > maxOfflineCacheBytes
    · rw [if_pos exceeds] at at_
      cases at_
    · rw [if_neg exceeds] at at_
      cases at_
      exact Nat.le_of_not_lt exceeds

theorem put_within (fits : Fits s keep) (at_ : keep.phase = .measured had total)
    (room : total + (if had then 0 else keep.entry.bytes) ≤ maxOfflineCacheBytes) :
    totalBytes (s.vault.set keep.slot keep.entry.bytes) ≤ maxOfflineCacheBytes := by
  unfold Fits at fits
  rw [at_] at fits
  obtain ⟨same,there,difference⟩ := fits
  have sum := total_set s.vault keep.slot keep.entry.bytes
  cases had with
  | true =>
    have replaced := difference rfl
    omega
  | false =>
    have fresh : s.vault.get keep.slot = none := by simpa using there
    simp only [Option.getD_none,Bool.false_eq_true,if_false] at sum room
    omega

theorem step_sound (sound : Sound s) (roomy : Roomy s event) (stepped : step s event = some next) : Sound next := by
  obtain ⟨within,measured⟩ := sound
  cases event with
  | keeps i isPinnedFolder host e replace =>
    obtain ⟨_,same⟩ := Option.ite_none_left_eq_some.mp stepped
    cases same
    exact ⟨within,started_measured measured i isPinnedFolder host e replace⟩
  | looks i ok =>
    simp only [step] at stepped
    split at stepped
    · cases stepped
      refine ⟨within,keep_measured measured ?_ s.vault⟩
      intro had total at_
      simp only [Keep.look] at at_
      split at at_
      · cases at_
      · split at at_ <;> cases at_
    · cases stepped
  | measures i ok =>
    simp only [step] at stepped
    split at stepped
    · cases stepped
      exact ⟨within,keep_measured measured (fun had total at_ => measure_room _ _ _ _ at_) s.vault⟩
    · cases stepped
  | puts i ok =>
    simp only [step] at stepped
    split at stepped
    · rename_i host e replace had total found
      cases stepped
      refine ⟨?_,keep_measured measured (fun _ _ at_ => by cases at_) _⟩
      cases ok with
      | false => exact within
      | true => exact put_within (roomy rfl _ found) rfl (measured i _ had total found rfl)
    · cases stepped
  | precaches p host entries =>
    obtain ⟨_,same⟩ := Option.ite_none_left_eq_some.mp stepped
    cases same
    exact ⟨within,measured⟩
  | totals p ok | considers p ok =>
    simp only [step] at stepped
    split at stepped
    · cases stepped
      exact ⟨within,measured⟩
    · cases stepped
  | fetches p ok keep =>
    simp only [step] at stepped
    split at stepped
    · split at stepped
      · cases stepped
        exact ⟨within,measured⟩
      · obtain ⟨_,same⟩ := Option.ite_none_left_eq_some.mp stepped
        cases same
        exact ⟨within,started_measured measured _ _ _ _ _⟩
    · cases stepped

theorem start_measured (vault : Vault) : Measured (start vault) := by
  intro i keep had total found
  cases found

theorem vault_within_budget {vault : Vault} {events : List Event} (within : totalBytes vault ≤ maxOfflineCacheBytes)
    (roomy : Every step Roomy (start vault) events) (ran : run step (start vault) events = some s) : totalBytes s.vault ≤ maxOfflineCacheBytes :=
  (run_preserves_when Sound (fun _ _ _ sound roomy stepped => step_sound sound roomy stepped) ⟨within,start_measured vault⟩ roomy ran).within

end Steps

def body (n : Nat) : Slot := ("pc",ascii "/photos/" ++ [UInt16.ofNat (n + 97)])

def file (n size : Nat) : Entry := ⟨(body n).2,false,some size⟩

def anyFolder : Pins := fun _ _ => true

-- Ten bodies that fill the budget to the byte when `free` is none.
def stored (free : Nat) : Vault where
  list := (body 0,10)::(body 1,maxOfflineFileBytes - 10 - free)::(List.range 9).map fun n => (body (n + 2),maxOfflineFileBytes)
  distinct := by
    change ((List.range 11).map body).Nodup
    decide

def grown : List Event := [.keeps 0 anyFolder "pc" (file 0 20) true,.looks 0 true,.measures 0 true,.puts 0 true]

def overlapped : List Event :=
  [.keeps 0 anyFolder "pc" (file 20 60) true,.keeps 1 anyFolder "pc" (file 21 60) true,.looks 0 true,.looks 1 true,.measures 0 true,.measures 1 true,
    .puts 0 true,.puts 1 true]

theorem vault_exceeds_budget :
    (totalBytes (stored 0) ≤ maxOfflineCacheBytes ∧ ¬ ∀ s, run step (start (stored 0)) grown = some s → totalBytes s.vault ≤ maxOfflineCacheBytes) ∧
    (totalBytes (stored 100) ≤ maxOfflineCacheBytes ∧ ¬ ∀ s, run step (start (stored 100)) overlapped = some s → totalBytes s.vault ≤ maxOfflineCacheBytes) := by
  refine ⟨⟨by decide,?_⟩,⟨by decide,?_⟩⟩
  all_goals
    intro always
    have within := always _ rfl
    revert within
    decide

theorem vault_within_budget_grown : ∃ s, run step (start (stored 100)) grown = some s ∧ totalBytes s.vault ≤ maxOfflineCacheBytes := by
  have roomy : Every step Roomy (start (stored 100)) grown := by decide
  exact ⟨_,rfl,vault_within_budget (by decide) roomy rfl⟩

end RemoteFileExplorer.OfflineVaults

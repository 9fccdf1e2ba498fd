import Mathlib.Data.List.Sort
import Mathlib.Data.String.Basic
import Mathlib.Data.List.Dedup
import RemoteFileExplorer.KeyedEntries
import RemoteFileExplorer.PathTexts
import RemoteFileExplorer.Runs

namespace RemoteFileExplorer.Discovery
open KeyedEntries PathTexts Runs

def maxTracked : Nat := 200
def maxPerAddress : Nat := 3

structure Found where
  name : Text
  hostport : Text
  otherAddresses : List Text
  version : Text
  deriving DecidableEq

-- What one resolved service says of itself: the addresses worth trying, best
-- first, and its version property.
structure Service where
  fullname : Text
  candidates : List Text
  version : Text

def isControl (c : Char) : Bool := c.toNat < 0x20 || (0x7f ≤ c.toNat && c.toNat < 0xa0)

def display (text : Text) (max : Nat) : Text :=
  trimSpace ((text.map fun c => if isControl c || c == '<' || c == '>' then ' ' else c).take max)

def service : Text := "_rfe._tcp.local.".toList

def instanceName (fullname : Text) : Text :=
  if service.isSuffixOf fullname then (fullname.take (fullname.length - service.length)).rdropWhile (· == '.') else fullname

def addressOf (hostport : Text) : Text := if ':' ∈ hostport then (hostport.rdropWhile (· != ':')).dropLast else hostport

abbrev Listed := Entries Text Found

def isAt (address : Text) (entry : Text × Found) : Bool := addressOf entry.2.hostport == address

def held (found : Listed) (address : Text) : Nat := found.list.countP (isAt address)

def ordered (found : Listed) : List (Text × Found) := found.list.insertionSort fun a b => a.1 ≤ b.1

def perAddress (found : Listed) : List (Text × Nat) :=
  ((found.list.map fun entry => addressOf entry.2.hostport).dedup.insertionSort (· ≤ ·)).map fun address => (address,held found address)

-- Of several greatest the last one.
def maxByKey (counts : List (Text × Nat)) : Option (Text × Nat) :=
  counts.foldl (fun best entry => some (best.elim entry fun b => if b.2 ≤ entry.2 then entry else b)) none

def crowdedVictim (found : Listed) (hostport : Text) : Option Text :=
  if found.list.length < maxTracked then none else
  (maxByKey (perAddress found)).bind fun (crowded,most) =>
    if most ≤ held found (addressOf hostport) + 1 then none else ((ordered found).find? (isAt crowded)).map Prod.fst

def admits (found : Listed) (fullname hostport : Text) : Bool :=
  if (found.get fullname).isSome then true else
  if maxTracked ≤ found.list.length then false else
  decide (held found (addressOf hostport) < maxPerAddress)

def roomFor (found : Listed) (fullname hostport : Text) : Listed :=
  if (found.get fullname).isSome then found else (crowdedVictim found hostport).elim found found.remove

def resolve (found : Listed) (s : Service) : Listed :=
  match s.candidates with
  | [] => found
  | first::list =>
    let found := roomFor found s.fullname first
    if admits found s.fullname first then found.set s.fullname ⟨display (instanceName s.fullname) 64,first,list,display s.version 32⟩ else found

def browse (found : Listed) (s : Service) : Option Listed := some (resolve found s)

structure Capped (found : Listed) : Prop where
  tracked : found.list.length ≤ maxTracked
  spread : ∀ address, held found address ≤ maxPerAddress

def DropsFairly (found : Listed) (fullname : Text) (next : Listed) : Prop :=
  ∀ name f, found.get name = some f → next.get name = none →
    ∃ g, found.get fullname = none ∧ next.get fullname = some g ∧ held found (addressOf g.hostport) < held found (addressOf f.hostport)

def Resists (found : Listed) (s : Service) : Prop := Capped (resolve found s) ∧ DropsFairly found s.fullname (resolve found s)

def others (found : Listed) (name address : Text) : Nat := (found.list.filter fun entry => decide (entry.1 ≠ name)).countP (isAt address)

def Settled (found : Listed) (s : Service) : Prop :=
  ∀ first rest, s.candidates = first::rest → (found.get s.fullname).isSome = true → others found s.fullname (addressOf first) < maxPerAddress

section Counts
variable {found : Listed} {name address : Text} {f : Found}

theorem put_others (distinct : (list.map Prod.fst).Nodup) :
    (put name f list).countP (isAt address) = (list.filter fun entry => decide (entry.1 ≠ name)).countP (isAt address) + (if isAt address (name,f) then 1 else 0) ∧
    (put name f list).length = (list.filter fun entry => decide (entry.1 ≠ name)).length + 1 := by
  induction list with
  | nil => simp [put,List.countP_cons]
  | cons entry rest ih =>
    rw [List.map_cons,List.nodup_cons] at distinct
    unfold put
    by_cases same : entry.1 = name
    · have away : ∀ other ∈ rest, decide (other.1 ≠ name) = true := by
        intro other member
        refine decide_eq_true fun equal => distinct.1 ?_
        rw [same,← equal]
        exact List.mem_map_of_mem member
      rw [if_pos same,List.filter_cons_of_neg (by simp [same]),List.filter_eq_self.mpr away]
      simp [List.countP_cons]
    · obtain ⟨count,length⟩ := ih distinct.2
      rw [if_neg same,List.filter_cons_of_pos (by simp [same]),List.countP_cons,List.countP_cons,count,List.length_cons,List.length_cons,length]
      exact ⟨by omega,rfl⟩

theorem put_same (distinct : (list.map Prod.fst).Nodup) (member : (name,f) ∈ list) : put name f list = list := by
  induction list with
  | nil => cases member
  | cons entry rest ih =>
    rw [List.map_cons,List.nodup_cons] at distinct
    unfold put
    rcases List.mem_cons.mp member with rfl | later
    · rw [if_pos rfl]
    · have away : entry.1 ≠ name := fun same => distinct.1 (same ▸ List.mem_map_of_mem later)
      rw [if_neg away,ih distinct.2 later]

theorem held_set : held (found.set name f) address = others found name address + (if addressOf f.hostport = address then 1 else 0) := by
  have count := (@put_others name address f found.list found.distinct).1
  simp only [isAt,beq_iff_eq] at count
  exact count

theorem others_listed (listed : found.get name = some f) :
    held found address = others found name address + (if addressOf f.hostport = address then 1 else 0) := by
  have count := (@put_others name address f found.list found.distinct).1
  rw [put_same found.distinct (get_mem listed)] at count
  simp only [isAt,beq_iff_eq] at count
  exact count

theorem length_remove (listed : found.get name = some f) : found.list.length = (found.remove name).list.length + 1 := by
  have count := (@put_others name [] f found.list found.distinct).2
  rw [put_same found.distinct (get_mem listed)] at count
  exact count

theorem absent_filter (absent : found.get name = none) : found.list.filter (fun entry => decide (entry.1 ≠ name)) = found.list := by
  rw [List.filter_eq_self]
  intro entry member
  refine decide_eq_true fun same => ?_
  have known : found.get entry.1 = some entry.2 := mem_get member
  rw [same,absent] at known
  cases known

theorem others_absent (absent : found.get name = none) : others found name address = held found address := by
  unfold others held
  rw [absent_filter absent]

theorem length_set : (found.set name f).list.length = (found.remove name).list.length + 1 := (@put_others name [] f found.list found.distinct).2

theorem length_fresh (absent : found.get name = none) : (found.set name f).list.length = found.list.length + 1 := by
  rw [length_set,Entries.remove,Entries.keep]
  simp only [absent_filter absent]

theorem held_remove : held (found.remove name) address = others found name address := rfl

end Counts

section Victims
variable {counts : List (Text × Nat)} {entry best : Text × Nat}

def better (best : Option (Text × Nat)) (entry : Text × Nat) : Option (Text × Nat) := some (best.elim entry fun b => if b.2 ≤ entry.2 then entry else b)

theorem search_greatest (start : Option (Text × Nat)) (found : counts.foldl better start = some best) :
    (best ∈ counts ∨ start = some best) ∧ (∀ entry ∈ counts, entry.2 ≤ best.2) ∧ (∀ first, start = some first → first.2 ≤ best.2) := by
  induction counts generalizing start with
  | nil =>
    refine ⟨.inr found,by simp,?_⟩
    intro first begun
    have same : first = best := Option.some.inj (begun.symm.trans found)
    rw [same]
  | cons entry rest ih =>
    obtain ⟨origin,greatest,before⟩ := ih (better start entry) found
    cases start with
    | none =>
      refine ⟨?_,?_,by simp⟩
      · rcases origin with later | now
        · exact .inl (List.mem_cons_of_mem _ later)
        · exact .inl (Option.some.inj now ▸ List.mem_cons_self ..)
      · exact List.forall_mem_cons.mpr ⟨before entry rfl,greatest⟩
    | some first =>
      by_cases more : first.2 ≤ entry.2
      · have step : better (some first) entry = some entry := by simp [better,more]
        rw [step] at origin before
        refine ⟨?_,?_,?_⟩
        · rcases origin with later | now
          · exact .inl (List.mem_cons_of_mem _ later)
          · exact .inl (Option.some.inj now ▸ List.mem_cons_self ..)
        · exact List.forall_mem_cons.mpr ⟨before entry rfl,greatest⟩
        · intro other same
          cases same
          exact more.trans (before entry rfl)
      · have step : better (some first) entry = some first := by simp [better,more]
        rw [step] at origin before
        refine ⟨origin.imp_left (List.mem_cons_of_mem _),?_,before⟩
        refine List.forall_mem_cons.mpr ⟨?_,greatest⟩
        exact (Nat.le_of_not_le more).trans (before first rfl)

theorem maxByKey_greatest (found : maxByKey counts = some best) : best ∈ counts ∧ ∀ entry ∈ counts, entry.2 ≤ best.2 := by
  obtain ⟨origin,greatest,_⟩ := search_greatest none found
  exact ⟨origin.resolve_right (by simp),greatest⟩

end Victims

section Steps
variable {found : Listed} {name hostport : Text} {s : Service}

theorem crowdedVictim_crowded (chosen : crowdedVictim found hostport = some name) :
    maxTracked ≤ found.list.length ∧ ∃ f, found.get name = some f ∧ held found (addressOf hostport) + 1 < held found (addressOf f.hostport) := by
  obtain ⟨full,chosen⟩ := Option.ite_none_left_eq_some.mp chosen
  refine ⟨Nat.le_of_not_lt full,?_⟩
  obtain ⟨⟨crowded,most⟩,greatest,picked⟩ := Option.bind_eq_some_iff.mp chosen
  obtain ⟨more,picked⟩ := Option.ite_none_left_eq_some.mp picked
  obtain ⟨entry,first,same⟩ := Option.map_eq_some_iff.mp picked
  have member : entry ∈ found.list := (List.mem_insertionSort _).mp (List.mem_of_find?_eq_some first)
  have here : addressOf entry.2.hostport = crowded := by simpa [isAt] using List.find?_some first
  have counted : most = held found crowded := by
    obtain ⟨address,_,pair⟩ := List.mem_map.mp (maxByKey_greatest greatest).1
    cases pair
    rfl
  refine ⟨entry.2,?_,?_⟩
  · rw [← same]
    exact mem_get member
  · rw [here,← counted]
    exact Nat.lt_of_not_le more

-- A newcomer under the caps either fits, or fits once one entry of a more
-- crowded address is gone; otherwise nothing changes.
inductive Joins (found : Listed) (name hostport : Text) (entry : Found) : Listed → Prop
  | refused : Joins found name hostport entry found
  | fits (space : found.list.length < maxTracked) (few : held found (addressOf hostport) < maxPerAddress) :
      Joins found name hostport entry (found.set name entry)
  | displaces (victim : Text) (f : Found) (listed : found.get victim = some f) (full : maxTracked ≤ found.list.length)
      (crowded : held found (addressOf hostport) + 1 < held found (addressOf f.hostport)) :
      Joins found name hostport entry ((found.remove victim).set name entry)

theorem held_remove_le (listed : found.get name = some f) : held (found.remove name) address ≤ held found address := by
  rw [others_listed listed,held_remove]
  exact Nat.le_add_right ..

theorem joins_new (capped : Capped found) (absent : found.get name = none) (entry : Found) :
    Joins found name hostport entry (if admits (roomFor found name hostport) name hostport then (roomFor found name hostport).set name entry else roomFor found name hostport) := by
  have missing : ¬ (found.get name).isSome = true := by simp [absent]
  cases chosen : crowdedVictim found hostport with
  | none =>
    have same : roomFor found name hostport = found := by
      unfold roomFor
      rw [if_neg missing,chosen]
      rfl
    rw [same]
    split
    · rename_i admitted
      unfold admits at admitted
      rw [if_neg missing] at admitted
      split at admitted
      · cases admitted
      · rename_i space
        exact .fits (Nat.lt_of_not_le space) (of_decide_eq_true admitted)
    · exact .refused
  | some victim =>
    obtain ⟨full,f,listed,crowded⟩ := crowdedVictim_crowded chosen
    have dropped : roomFor found name hostport = found.remove victim := by
      unfold roomFor
      rw [if_neg missing,chosen]
      rfl
    have still : ¬ ((found.remove victim).get name).isSome = true := by
      rw [get_remove,absent]
      simp
    have admitted : admits (found.remove victim) name hostport = true := by
      have count := length_remove listed
      have room : ¬ maxTracked ≤ (found.remove victim).list.length := by
        have tracked := capped.tracked
        omega
      unfold admits
      rw [if_neg still,if_neg room]
      refine decide_eq_true ?_
      calc held (found.remove victim) (addressOf hostport) ≤ held found (addressOf hostport) := held_remove_le listed
        _ < held found (addressOf f.hostport) := by omega
        _ ≤ maxPerAddress := capped.spread _
    rw [dropped,if_pos admitted]
    exact .displaces victim f listed full crowded

theorem capped_set (capped : Capped found) (listed : (found.get name).isSome = true) (entry : Found) :
    Capped (found.set name entry) ↔ others found name (addressOf entry.hostport) < maxPerAddress := by
  obtain ⟨old,listed⟩ := Option.isSome_iff_exists.mp listed
  constructor
  · intro after
    have count := after.spread (addressOf entry.hostport)
    rw [held_set,if_pos rfl] at count
    exact count
  · intro few
    refine ⟨?_,?_⟩
    · rw [length_set,← length_remove listed]
      exact capped.tracked
    · intro address
      have before := capped.spread address
      rw [others_listed listed] at before
      rw [held_set]
      split
      · rename_i same
        exact same ▸ few
      · omega

theorem drops_set (entry : Found) : DropsFairly found name (found.set name entry) := by
  intro other f held gone
  rw [get_set] at gone
  split at gone
  · cases gone
  · rw [held] at gone
    cases gone

theorem joins_resists (capped : Capped found) (absent : found.get name = none) (joins : Joins found name entry.hostport entry next) :
    Capped next ∧ DropsFairly found name next := by
  cases joins with
  | refused =>
    refine ⟨capped,?_⟩
    intro other f listed gone
    rw [listed] at gone
    cases gone
  | fits space few =>
    refine ⟨⟨?_,?_⟩,drops_set entry⟩
    · rw [length_fresh absent]
      exact space
    · intro address
      rw [held_set,others_absent absent]
      split
      · rename_i same
        exact same ▸ few
      · exact capped.spread address
  | displaces victim f listed full crowded =>
    have away : (found.remove victim).get name = none := by
      rw [get_remove,absent]
      simp
    refine ⟨⟨?_,?_⟩,?_⟩
    · rw [length_fresh away,← length_remove listed]
      exact capped.tracked
    · intro address
      have fewer : held (found.remove victim) address ≤ held found address := held_remove_le listed
      rw [held_set,others_absent away]
      split
      · rename_i same
        subst same
        have most := capped.spread (addressOf f.hostport)
        omega
      · exact fewer.trans (capped.spread address)
    · intro other g before gone
      refine ⟨entry,absent,get_set_same,?_⟩
      rw [get_set] at gone
      split at gone
      · cases gone
      · rw [get_remove] at gone
        split at gone
        · rename_i same
          rw [same,listed] at before
          cases before
          exact Nat.lt_of_succ_lt crowded
        · rw [before] at gone
          cases gone

theorem resists_iff (capped : Capped found) : Resists found s ↔ Settled found s := by
  unfold Resists Settled resolve
  cases candidates : s.candidates with
  | nil =>
    refine ⟨fun _ first rest same => (List.cons_ne_nil _ _ same.symm).elim,fun _ => ⟨capped,?_⟩⟩
    intro other f listed gone
    rw [listed] at gone
    cases gone
  | cons first list =>
    by_cases known : (found.get s.fullname).isSome = true
    · have kept : roomFor found s.fullname first = found := if_pos known
      have admitted : admits found s.fullname first = true := if_pos known
      simp only [kept,admitted,if_true,List.cons.injEq]
      rw [capped_set capped known]
      constructor
      · rintro ⟨few,_⟩ one rest ⟨rfl,_⟩ _
        exact few
      · intro settled
        exact ⟨settled first list ⟨rfl,rfl⟩ known,drops_set _⟩
    · have absent : found.get s.fullname = none := by simpa using known
      refine ⟨fun _ _ _ _ listed => absurd listed known,fun _ => ?_⟩
      exact joins_resists capped absent (joins_new capped absent ⟨display (instanceName s.fullname) 64,first,list,display s.version 32⟩)

end Steps

theorem capped_empty : Capped .empty := ⟨Nat.zero_le _,fun _ => Nat.zero_le _⟩

-- Every step of a run resists flooding exactly when no step announces a listed
-- name from a full address.
theorem flood_resisted_iff (services : List Service) : Every browse Resists .empty services ↔ Every browse Settled .empty services := by
  constructor
  · refine every_weakens Capped ?_ (fun found s capped => (resists_iff capped).mp) capped_empty
    intro found s next _ resists stepped
    cases stepped
    exact resists.1
  · refine every_weakens Capped ?_ (fun found s capped => (resists_iff capped).mpr) capped_empty
    intro found s next capped settled stepped
    cases stepped
    exact ((resists_iff capped).mpr settled).1

def announced (name address : String) : Service := ⟨name.toList ++ '.'::service,[address.toList],[]⟩

def moved : List Service :=
  [announced "a" "10.0.0.1:8765",announced "b" "10.0.0.2:8765",announced "c" "10.0.0.3:8765",announced "d" "10.0.0.4:8765",
    announced "a" "10.0.0.9:8765",announced "b" "10.0.0.9:8765",announced "c" "10.0.0.9:8765",announced "d" "10.0.0.9:8765"]

theorem moved_names_crowd : ¬ Every browse Resists .empty moved := by
  intro every
  have crowded : ∃ found, run browse .empty moved = some found ∧ held found "10.0.0.9".toList = 4 := ⟨_,rfl,by decide⟩
  obtain ⟨found,ran,four⟩ := crowded
  have capped := run_preserves_when Capped (fun _ _ _ _ resists stepped => Option.some.inj stepped ▸ resists.1) capped_empty every ran
  have most := capped.spread "10.0.0.9".toList
  rw [four] at most
  exact absurd most (by decide)

end RemoteFileExplorer.Discovery

import Mathlib.Data.Finset.Card
import RemoteFileExplorer.Pages
import RemoteFileExplorer.Runs

namespace RemoteFileExplorer.EchoedPages
open Runs Pages

-- A collection read page by page while it changes, by a reader that gives each
-- cut back through a channel that may alter it.
variable {Key Item : Type} [LinearOrder Key] (key : Item → Key) (echo : Key → Key)

structure Request (key : Item → Key) where
  items : List Item
  distinct : (items.map key).Nodup
  limit : Nat
  positive : 0 < limit

inductive Place (Key : Type) where
  | first
  | cut (last : Key)
  | finished
  deriving DecidableEq

def Place.cursor : Place Key → Option Key
  | .cut last => some (echo last)
  | .first | .finished => none

structure Reading (Key : Type) where
  shown : List Key
  place : Place Key

def start : Reading Key := ⟨[],.first⟩

def answer (s : Reading Key) (request : Request key) : Page Key Item := page key request.limit (s.place.cursor echo) request.items

def step (s : Reading Key) (request : Request key) : Option (Reading Key) :=
  match s.place with
  | .finished => none
  | _ => some ⟨s.shown ++ (answer key echo s request).items.map key,(answer key echo s request).next.elim .finished .cut⟩

def Throughout (requests : List (Request key)) (k : Key) : Prop := ∀ request ∈ requests, k ∈ request.items.map key

def Ahead (s : Reading Key) (request : Request key) : Prop :=
  ∀ last, s.place = .cut last → ∀ item ∈ request.items, echo last < key item → last < key item

def Reached (stays : Key → Prop) (s : Reading Key) (_ : Request key) : Prop :=
  ∀ last, s.place = .cut last → ∀ k, stays k → last < k → echo last < k

structure Exact (requests : List (Request key)) (s : Reading Key) : Prop where
  ordered : s.shown.Pairwise (· < ·)
  complete : s.place = .finished → ∀ k, Throughout key requests k → k ∈ s.shown
  bounded : ∀ keys : Finset Key, (∀ request ∈ requests, ∀ item ∈ request.items, key item ∈ keys) → requests.length ≤ keys.card + 1

section Answers
variable {key echo} {s next : Reading Key} {request : Request key} {requests : List (Request key)}

theorem answer_splits : (answer key echo s request).items ++ remaining key (answer key echo s request).next request.items =
    after key (s.place.cursor echo) (listed key request.items) := page_splits key request.positive request.distinct

theorem answer_ordered : ((answer key echo s request).items.map key).Pairwise (· < ·) := by
  have whole : (after key (s.place.cursor echo) (listed key request.items)).Pairwise (fun a b => key a < key b) :=
    (listed_ordered key request.distinct).filter _
  rw [← answer_splits] at whole
  exact List.pairwise_map.mpr (List.pairwise_append.mp whole).1

theorem mem_after {cursor : Option Key} {items : List Item} :
    item ∈ after key cursor (listed key items) ↔ item ∈ items ∧ ∀ last, cursor = some last → last < key item := by
  unfold after
  cases cursor <;> simp

theorem answer_member (member : item ∈ (answer key echo s request).items) :
    item ∈ request.items ∧ ∀ last, s.place = .cut last → echo last < key item := by
  have inside : item ∈ after key (s.place.cursor echo) (listed key request.items) := by
    rw [← answer_splits]
    exact List.mem_append_left _ member
  obtain ⟨listed,past⟩ := mem_after.mp inside
  refine ⟨listed,?_⟩
  intro last at_
  exact past (echo last) (by rw [at_]; rfl)

theorem answer_rest (member : item ∈ request.items) (past : ∀ last, s.place = .cut last → echo last < key item) :
    item ∈ (answer key echo s request).items ∨ ∃ last, (answer key echo s request).next = some last ∧ last < key item := by
  have cursor : ∀ last, s.place.cursor echo = some last → last < key item := by
    intro last given
    cases place : s.place with
    | first | finished => rw [place] at given; cases given
    | cut before =>
      rw [place] at given
      cases given
      exact past before place
  have inside := mem_after.mpr ⟨member,cursor⟩
  rw [← answer_splits,List.mem_append] at inside
  rcases inside with shown | left
  · exact .inl shown
  · right
    cases more : (answer key echo s request).next with
    | none =>
      rw [more] at left
      cases left
    | some last =>
      rw [more] at left
      exact ⟨last,rfl,(mem_after.mp left).2 last rfl⟩

theorem answer_cut (more : (answer key echo s request).next = some last) :
    ∃ front item, (answer key echo s request).items = front ++ [item] ∧ key item = last := by
  simp only [answer,page] at more ⊢
  split at more
  · obtain ⟨item,final,same⟩ := Option.map_eq_some_iff.mp more
    obtain ⟨front,shape⟩ := List.getLast?_eq_some_iff.mp final
    exact ⟨front,item,shape,same⟩
  · cases more

theorem step_parts : step key echo s request = some next ↔
    s.place ≠ .finished ∧ next = ⟨s.shown ++ (answer key echo s request).items.map key,(answer key echo s request).next.elim .finished .cut⟩ := by
  unfold step
  cases place : s.place <;> simp [eq_comm]

theorem placed_cut (placed : (answer key echo s request).next.elim .finished .cut = Place.cut last) : (answer key echo s request).next = some last := by
  cases more : (answer key echo s request).next with
  | none => rw [more] at placed; cases placed
  | some found => rw [more] at placed; cases placed; rfl

end Answers

section Reading
variable {key echo} {s next : Reading Key} {request : Request key} {requests : List (Request key)} {stays : Key → Prop}

def Marked (s : Reading Key) : Prop :=
  (s.place = .first → s.shown = []) ∧ ∀ last, s.place = .cut last → ∃ front, s.shown = front ++ [last]

theorem step_marked (stepped : step key echo s request = some next) : Marked next := by
  obtain ⟨_,rfl⟩ := step_parts.mp stepped
  refine ⟨?_,?_⟩
  · cases (answer key echo s request).next <;> intro same <;> cases same
  · intro last placed
    obtain ⟨front,item,shape,same⟩ := answer_cut (placed_cut placed)
    exact ⟨s.shown ++ front.map key,by simp [shape,same]⟩

omit [LinearOrder Key] in
theorem start_marked : Marked (start : Reading Key) := ⟨fun _ => rfl,nofun⟩

theorem run_marked (ran : run (step key echo) start requests = some s) : Marked s :=
  run_preserves (fun _ _ _ _ stepped => step_marked stepped) start_marked ran

theorem step_ordered (marked : Marked s) (ordered : s.shown.Pairwise (· < ·)) (ahead : Ahead key echo s request)
    (stepped : step key echo s request = some next) : next.shown.Pairwise (· < ·) := by
  obtain ⟨going,rfl⟩ := step_parts.mp stepped
  rw [List.pairwise_append]
  refine ⟨ordered,answer_ordered,?_⟩
  intro early oldShown late after
  obtain ⟨new,newShown,rfl⟩ := List.mem_map.mp after
  obtain ⟨listed,past⟩ := answer_member newShown
  cases place : s.place with
  | first =>
    rw [marked.1 place] at oldShown
    cases oldShown
  | finished => exact absurd place going
  | cut last =>
    obtain ⟨front,shape⟩ := marked.2 last place
    have beyond := ahead _ place new listed (past _ place)
    rw [shape] at oldShown ordered
    rcases List.mem_append.mp oldShown with inside | final
    · exact ((List.pairwise_append.mp ordered).2.2 _ inside _ (List.mem_cons_self ..)).trans beyond
    · rw [List.mem_singleton.mp final]
      exact beyond

theorem ordered_ahead (marked : Marked s) (stepped : step key echo s request = some next)
    (ordered : next.shown.Pairwise (· < ·)) : Ahead key echo s request := by
  intro last place item listed past
  obtain ⟨going,rfl⟩ := step_parts.mp stepped
  obtain ⟨front,shape⟩ := marked.2 last place
  rw [List.pairwise_append,shape] at ordered
  have shown : ∀ other ∈ (answer key echo s request).items, last < key other := by
    intro other inside
    exact ordered.2.2 _ (List.mem_append_right _ (List.mem_cons_self ..)) _ (List.mem_map_of_mem inside)
  have rest := answer_rest (s := s) listed fun other same => by
    rw [place] at same
    cases same
    exact past
  rcases rest with inside | ⟨cut,more,beyond⟩
  · exact shown item inside
  · obtain ⟨before,edge,pageShape,rfl⟩ := answer_cut more
    exact (shown edge (by rw [pageShape]; exact List.mem_append_right _ (List.mem_cons_self ..))).trans beyond

theorem shown_grows (ran : run (step key echo) s requests = some next) : ∃ more, next.shown = s.shown ++ more := by
  induction requests generalizing s with
  | nil =>
    cases ran
    exact ⟨[],(List.append_nil _).symm⟩
  | cons request rest ih =>
    obtain ⟨middle,stepped,tail⟩ := run_cons.mp ran
    obtain ⟨_,rfl⟩ := step_parts.mp stepped
    obtain ⟨more,same⟩ := ih tail
    exact ⟨(answer key echo s request).items.map key ++ more,by rw [same,List.append_assoc]⟩

theorem run_ordered (ran : run (step key echo) start requests = some s) :
    s.shown.Pairwise (· < ·) ↔ Every (step key echo) (Ahead key echo) start requests := by
  constructor
  · intro ordered
    by_contra fails
    obtain ⟨past,request,rest,middle,next,_,ranPast,stepped,ranRest,behind⟩ := every_fails ran fails
    obtain ⟨more,same⟩ := shown_grows ranRest
    rw [same] at ordered
    exact behind (ordered_ahead (run_marked ranPast) stepped (List.pairwise_append.mp ordered).1)
  · intro ahead
    have kept : Marked s ∧ s.shown.Pairwise (· < ·) :=
      run_preserves_when (fun s => Marked s ∧ s.shown.Pairwise (· < ·))
        (fun _ _ _ both fits stepped => ⟨step_marked stepped,step_ordered both.1 both.2 fits stepped⟩)
        ⟨start_marked,.nil⟩ ahead ran
    exact kept.2

def Caught (stays : Key → Prop) (s : Reading Key) : Prop :=
  ∀ k, stays k → k ∈ s.shown ∨ (s.place ≠ .finished ∧ ∀ last, s.place = .cut last → last < k)

theorem step_caught (caught : Caught stays s) (reached : Reached key echo stays s request)
    (present : ∀ k, stays k → k ∈ request.items.map key) (stepped : step key echo s request = some next) : Caught stays next := by
  obtain ⟨going,rfl⟩ := step_parts.mp stepped
  intro k stay
  rcases caught k stay with shown | ⟨_,before⟩
  · left
    exact List.mem_append_left _ shown
  · obtain ⟨item,listed,rfl⟩ := List.mem_map.mp (present k stay)
    rcases answer_rest listed (fun last place => reached last place (key item) stay (before last place)) with inside | ⟨cut,more,beyond⟩
    · left
      exact List.mem_append_right _ (List.mem_map_of_mem inside)
    · right
      rw [more]
      exact ⟨nofun,fun last same => by cases same; exact beyond⟩

theorem finished_stays (finished : s.place = .finished) (ran : run (step key echo) s requests = some next) : next = s := by
  cases requests with
  | nil =>
    cases ran
    rfl
  | cons request rest =>
    obtain ⟨middle,stepped,_⟩ := run_cons.mp ran
    exact absurd finished (step_parts.mp stepped).1

theorem missed_lost {last k : Key} {middle : Reading Key} (marked : Marked s) (place : s.place = .cut last) (beyond : last < k) (missed : k ≤ echo last)
    (stepped : step key echo s request = some middle) (ran : run (step key echo) middle requests = some next)
    (ordered : next.shown.Pairwise (· < ·)) : k ∉ next.shown := by
  obtain ⟨more,grown⟩ := shown_grows ran
  obtain ⟨_,rfl⟩ := step_parts.mp stepped
  obtain ⟨front,shape⟩ := marked.2 last place
  rw [grown] at ordered ⊢
  have outer := List.pairwise_append.mp ordered
  have inner := (List.pairwise_append.mp outer.1).1
  intro member
  rcases List.mem_append.mp member with early | late
  · rcases List.mem_append.mp early with before | now
    · rw [shape] at before inner
      rcases List.mem_append.mp before with inside | same
      · have below := (List.pairwise_append.mp inner).2.2 k inside last (List.mem_cons_self ..)
        exact lt_asymm below beyond
      · rw [List.mem_singleton.mp same] at beyond
        exact lt_irrefl _ beyond
    · obtain ⟨item,shown,rfl⟩ := List.mem_map.mp now
      exact absurd ((answer_member shown).2 _ place) (not_lt.mpr missed)
  · cases more_ : (answer key echo s request).next with
    | none =>
      have same := finished_stays (by rw [more_]; rfl) ran
      rw [same] at grown
      have none : more = [] := List.append_cancel_left (grown.symm.trans (List.append_nil _).symm)
      rw [none] at late
      cases late
    | some cut =>
      obtain ⟨before,edge,pageShape,_⟩ := answer_cut more_
      have shown : edge ∈ (answer key echo s request).items := by
        rw [pageShape]
        exact List.mem_append_right _ (List.mem_cons_self ..)
      have above := outer.2.2 (key edge) (List.mem_append_right _ (List.mem_map_of_mem shown)) k late
      exact lt_asymm (lt_of_le_of_lt missed ((answer_member shown).2 _ place)) above

section
variable (ran : run (step key echo) start requests = some s)
include ran

theorem run_complete (ordered : s.shown.Pairwise (· < ·)) (finished : s.place = .finished) :
    (∀ k, Throughout key requests k → k ∈ s.shown) ↔
      Every (step key echo) (Reached key echo (Throughout key requests)) start requests := by
  constructor
  · intro complete
    by_contra fails
    obtain ⟨past,request,rest,middle,next,_,ranPast,stepped,ranRest,missing⟩ := every_fails ran fails
    simp only [Reached,not_forall,not_lt] at missing
    obtain ⟨last,place,k,stay,beyond,missed⟩ := missing
    have lost := missed_lost (run_marked ranPast) place beyond missed stepped ranRest ordered
    exact lost (complete k stay)
  · intro reached k stay
    have caught : Caught (Throughout key requests) s := by
      refine run_history (fun past s => Every (step key echo) (Reached key echo (Throughout key requests)) start past → Caught (Throughout key requests) s)
        ?_ ?_ ran reached
      · intro past middle request next ranPast caught stepped front every
        obtain ⟨rest,whole⟩ := front
        have member : request ∈ requests := by
          rw [← whole]
          simp
        exact step_caught (caught (every_front every)) (every_back every ranPast).1 (fun k stay => stay request member) stepped
      · intro _ k _
        exact .inr ⟨nofun,nofun⟩
    rcases caught k stay with shown | ⟨going,_⟩
    · exact shown
    · exact absurd finished going

-- A page that is cut has shown something, so each request but the last took a
-- key that no other request took.
theorem run_bounded (ordered : s.shown.Pairwise (· < ·)) {keys : Finset Key}
    (inside : ∀ request ∈ requests, ∀ item ∈ request.items, key item ∈ keys) : requests.length ≤ keys.card + 1 := by
  have counted : (∀ k ∈ s.shown, k ∈ keys) ∧ requests.length ≤ s.shown.length + 1 ∧ (s.place ≠ .finished → requests.length ≤ s.shown.length) := by
    refine run_history (fun past s => (∀ k ∈ s.shown, k ∈ keys) ∧ past.length ≤ s.shown.length + 1 ∧
      (s.place ≠ .finished → past.length ≤ s.shown.length)) ?_ ⟨(by simp [start]),Nat.zero_le _,fun _ => Nat.zero_le _⟩ ran
    intro past middle request next _ kept stepped front
    obtain ⟨rest,whole⟩ := front
    obtain ⟨going,rfl⟩ := step_parts.mp stepped
    obtain ⟨known,_,few⟩ := kept
    have short := few going
    refine ⟨?_,?_,?_⟩
    · intro k shown
      rcases List.mem_append.mp shown with before | now
      · exact known k before
      · obtain ⟨item,listed,rfl⟩ := List.mem_map.mp now
        exact inside request (by rw [← whole]; simp) item (answer_member listed).1
    · simp only [List.length_append,List.length_singleton]
      omega
    · intro more
      cases cut : (answer key echo middle request).next with
      | none => exact absurd (by rw [cut]; rfl) more
      | some last =>
        obtain ⟨before,edge,shape,_⟩ := answer_cut cut
        simp only [List.length_append,List.length_map,List.length_singleton,shape]
        omega
  have distinct : s.shown.Nodup := ordered.imp ne_of_lt
  have few : s.shown.toFinset.card ≤ keys.card := by
    apply Finset.card_le_card
    intro k member
    exact counted.1 k (List.mem_toFinset.mp member)
  rw [List.toFinset_card_of_nodup distinct] at few
  omega

theorem reading_exact : Exact key requests s ↔
    Every (step key echo) (Ahead key echo) start requests ∧
      (s.place = .finished → Every (step key echo) (Reached key echo (Throughout key requests)) start requests) := by
  constructor
  · intro exact
    exact ⟨(run_ordered ran).mp exact.ordered,fun finished => (run_complete ran exact.ordered finished).mp (exact.complete finished)⟩
  · rintro ⟨ahead,reached⟩
    have ordered := (run_ordered ran).mpr ahead
    exact ⟨ordered,fun finished => (run_complete ran ordered finished).mpr (reached finished),fun _ inside => run_bounded ran ordered inside⟩

end

end Reading

end RemoteFileExplorer.EchoedPages

import Mathlib.Data.Finset.Card
import Mathlib.Data.List.Nodup
import Mathlib.Data.List.Pairwise

namespace RemoteFileExplorer.GraphWalks

-- A graph with files at its nodes. A row of a node has a label of its own and is
-- a file or leads on to a node; a node without rows cannot be walked.
structure Graph (Node Label File : Type) where
  rows : Node → Option (List (Label × (File ⊕ Node)))
  distinct : ∀ node list, rows node = some list → (list.map Prod.fst).Nodup

variable {Node Label File Key : Type} (g : Graph Node Label File)

inductive Route (g : Graph Node Label File) : Node → List Label → Node → Prop where
  | here (node : Node) : Route g node [] node
  | down (listed : g.rows node = some list) (row : (label,.inr next) ∈ list) (rest : Route g next labels last) : Route g node (label::labels) last

def Holds (node : Node) (label : Label) (file : File) : Prop := ∃ list, g.rows node = some list ∧ (label,.inl file) ∈ list

-- Depth first, and no node is remembered. Out of fuel, or at a node without
-- rows, there is no result.
def visit (walk : Node → Option (List File)) : File ⊕ Node → Option (List File)
  | .inl file => some [file]
  | .inr next => walk next

def walk : Nat → Node → Option (List File)
  | 0,_ => none
  | fuel + 1,node => (g.rows node).bind fun list => (list.mapM fun row => visit (walk fuel) row.2).map List.flatten

def Open (node : Node) : Prop := ∀ labels last, Route g node labels last → ∃ list, g.rows last = some list

def Acyclic (node : Node) : Prop := ∀ labels more last, Route g node labels last → Route g last more last → more = []

def Single (node : Node) : Prop := ∀ one two last label file, Route g node one last → Route g node two last → Holds g last label file → one = two

section Routes
variable {g} {node last : Node} {label : Label} {list : List (Label × (File ⊕ Node))}

theorem row_unique (listed : g.rows node = some list) (one : (label,row) ∈ list) (two : (label,other) ∈ list) : row = other :=
  congrArg Prod.snd (List.inj_on_of_nodup_map (g.distinct node list listed) one two rfl)

theorem route_append (first : Route g node one middle) (second : Route g middle two last) : Route g node (one ++ two) last := by
  induction first with
  | here => exact second
  | down listed row _ ih => exact .down listed row (ih second)

theorem route_down (route : Route g node (label::labels) last) : ∃ list next, g.rows node = some list ∧ (label,.inr next) ∈ list ∧ Route g next labels last := by
  cases route with
  | down listed row rest => exact ⟨_,_,listed,row,rest⟩

theorem acyclic_down (acyclic : Acyclic g node) (listed : g.rows node = some list) (row : (label,.inr next) ∈ list) : Acyclic g next :=
  fun _ more last route back => acyclic _ more last (.down listed row route) back

theorem open_down (opened : Open g node) (listed : g.rows node = some list) (row : (label,.inr next) ∈ list) : Open g next :=
  fun _ last route => opened _ last (.down listed row route)

end Routes

section Ends
variable {g} {node last : Node}

theorem mapM_some {f : α → Option (List β)} {list : List α} :
    list.mapM f = some results ↔ (∀ a ∈ list, (f a).isSome = true) ∧ results = list.map fun a => (f a).getD [] := by
  induction list generalizing results with
  | nil =>
    constructor
    · intro same
      cases same
      exact ⟨nofun,rfl⟩
    · rintro ⟨_,rfl⟩
      rfl
  | cons first rest ih =>
    rw [List.mapM_cons]
    constructor
    · intro mapped
      obtain ⟨one,found,mapped⟩ := Option.bind_eq_some_iff.mp mapped
      obtain ⟨others,later,same⟩ := Option.bind_eq_some_iff.mp mapped
      cases same
      obtain ⟨every,rfl⟩ := ih.mp later
      refine ⟨?_,by rw [List.map_cons,found]; rfl⟩
      intro a member
      rcases List.mem_cons.mp member with rfl | tail
      · rw [found]
        rfl
      · exact every a tail
    · rintro ⟨every,rfl⟩
      obtain ⟨one,found⟩ := Option.isSome_iff_exists.mp (every first (List.mem_cons_self ..))
      have later := ih.mpr ⟨fun a member => every a (List.mem_cons_of_mem _ member),rfl⟩
      rw [later,List.map_cons,found]
      rfl

theorem walk_step (fuel : Nat) (node : Node) :
    walk g (fuel + 1) node = (g.rows node).bind fun list => (list.mapM fun row => visit (walk g fuel) row.2).map List.flatten := rfl

theorem walk_parts : walk g (fuel + 1) node = some out ↔ ∃ list, g.rows node = some list ∧ (∀ row ∈ list, (visit (walk g fuel) row.2).isSome = true) ∧
    out = list.flatMap fun row => (visit (walk g fuel) row.2).getD [] := by
  rw [walk_step,Option.bind_eq_some_iff]
  constructor
  · rintro ⟨list,listed,walked⟩
    obtain ⟨pieces,mapped,rfl⟩ := Option.map_eq_some_iff.mp walked
    obtain ⟨every,rfl⟩ := mapM_some.mp mapped
    exact ⟨list,listed,every,rfl⟩
  · rintro ⟨list,listed,every,rfl⟩
    exact ⟨list,listed,Option.map_eq_some_iff.mpr ⟨_,mapM_some.mpr ⟨every,rfl⟩,rfl⟩⟩

theorem route_walked (walked : walk g fuel node = some out) (route : Route g node labels last) :
    ∃ left inner, fuel = left + 1 + labels.length ∧ walk g (left + 1) last = some inner := by
  induction route generalizing fuel out with
  | here node =>
    cases fuel with
    | zero => cases walked
    | succ left => exact ⟨left,out,rfl,walked⟩
  | down listed row rest ih =>
    cases fuel with
    | zero => cases walked
    | succ fuel =>
      obtain ⟨list,known,every,_⟩ := walk_parts.mp walked
      rw [listed] at known
      cases known
      obtain ⟨piece,deeper⟩ := Option.isSome_iff_exists.mp (every _ row)
      obtain ⟨left,inner,enough,found⟩ := ih deeper
      refine ⟨left,inner,?_,found⟩
      rw [List.length_cons]
      omega

theorem walked_open (walked : walk g fuel node = some out) : Open g node := by
  intro labels last route
  obtain ⟨left,inner,_,found⟩ := route_walked walked route
  obtain ⟨list,listed,_⟩ := walk_parts.mp found
  exact ⟨list,listed⟩

-- A way back to a node could be gone round once more than there is fuel.
theorem route_again (back : Route g node more node) (times : Nat) : Route g node (List.replicate times more).flatten node := by
  induction times with
  | zero => exact .here node
  | succ times ih =>
    exact route_append back ih

theorem walked_acyclic (walked : walk g fuel node = some out) : Acyclic g node := by
  intro labels more last route back
  by_contra around
  have long : 0 < more.length := List.length_pos_iff.mpr around
  obtain ⟨left,inner,enough,_⟩ := route_walked walked (route_append route (route_again back fuel))
  rw [List.length_append,List.length_flatten,List.map_replicate,List.sum_replicate_nat] at enough
  have rounds : fuel ≤ fuel * more.length := Nat.le_mul_of_pos_right fuel long
  omega

theorem short_ends (opened : Open g node) (short : ∀ labels last, Route g node labels last → labels.length < fuel) : ∃ out, walk g fuel node = some out := by
  induction fuel generalizing node with
  | zero => cases short [] node (.here node)
  | succ fuel ih =>
    obtain ⟨list,listed⟩ := opened [] node (.here node)
    refine ⟨_,walk_parts.mpr ⟨list,listed,?_,rfl⟩⟩
    rintro ⟨label,row⟩ member
    cases row with
    | inl file => rfl
    | inr next =>
      have deeper : ∃ out, walk g fuel next = some out := by
        refine ih (open_down opened listed member) ?_
        intro labels last route
        have bound := short (label::labels) last (.down listed member route)
        rw [List.length_cons] at bound
        omega
      exact Option.isSome_iff_exists.mpr deeper

theorem acyclic_short (acyclic : Acyclic g node) (nodes : Finset Node) (inside : ∀ labels last, Route g node labels last → last ∈ nodes)
    (route : Route g node labels last) : labels.length < nodes.card := by
  classical
  induction labels generalizing node nodes with
  | nil => exact Finset.card_pos.mpr ⟨node,inside [] node (.here node)⟩
  | cons label labels ih =>
    obtain ⟨list,next,listed,row,rest⟩ := route_down route
    have fewer : labels.length < (nodes.erase node).card := by
      refine ih (acyclic_down acyclic listed row) (nodes.erase node) ?_ rest
      intro others end_ further
      have whole : Route g node (label::others) end_ := .down listed row further
      refine Finset.mem_erase.mpr ⟨?_,inside _ end_ whole⟩
      rintro rfl
      cases acyclic [] _ _ (.here _) whole
    rw [Finset.card_erase_of_mem (inside [] node (.here node))] at fewer
    rw [List.length_cons]
    omega

theorem ends_iff (nodes : Finset Node) (inside : ∀ last list, g.rows last = some list → last ∈ nodes) :
    (∃ fuel out, walk g fuel node = some out) ↔ Open g node ∧ Acyclic g node := by
  constructor
  · rintro ⟨fuel,out,walked⟩
    exact ⟨walked_open walked,walked_acyclic walked⟩
  · rintro ⟨opened,acyclic⟩
    have reached : ∀ labels last, Route g node labels last → last ∈ nodes := by
      intro labels last route
      obtain ⟨list,listed⟩ := opened labels last route
      exact inside last list listed
    exact ⟨nodes.card,short_ends opened fun _ _ route => acyclic_short acyclic nodes reached route⟩

end Ends

section Results
variable {g} {node : Node} {out : List File}

theorem walk_member (walked : walk g fuel node = some out) : file ∈ out ↔ ∃ labels last label, Route g node labels last ∧ Holds g last label file := by
  induction fuel generalizing node out with
  | zero => cases walked
  | succ fuel ih =>
    obtain ⟨list,listed,every,rfl⟩ := walk_parts.mp walked
    rw [List.mem_flatMap]
    constructor
    · rintro ⟨⟨label,row⟩,member,inside⟩
      cases row with
      | inl other =>
        cases List.mem_singleton.mp inside
        exact ⟨[],node,label,.here node,list,listed,member⟩
      | inr next =>
        obtain ⟨piece,deeper⟩ := Option.isSome_iff_exists.mp (every _ member)
        rw [deeper] at inside
        obtain ⟨labels,last,own,route,holds⟩ := (ih deeper).mp inside
        exact ⟨label::labels,last,own,.down listed member route,holds⟩
    · rintro ⟨labels,last,label,route,holds⟩
      cases route with
      | here =>
        obtain ⟨known,same,member⟩ := holds
        rw [listed] at same
        cases same
        exact ⟨(label,.inl file),member,List.mem_singleton.mpr rfl⟩
      | @down _ known first next _ _ same row rest =>
        rw [listed] at same
        cases same
        refine ⟨(first,.inr next),row,?_⟩
        obtain ⟨piece,deeper⟩ := Option.isSome_iff_exists.mp (every _ row)
        rw [deeper]
        exact (ih deeper).mpr ⟨_,last,label,rest,holds⟩

theorem piece_member (listed : g.rows node = some list) (row : (label,entry) ∈ list)
    (walked : (visit (walk g fuel) entry).isSome = true) (inside : file ∈ (visit (walk g fuel) entry).getD []) :
    (entry = .inl file ∧ Holds g node label file) ∨
      ∃ next labels last own, entry = .inr next ∧ Route g node (label::labels) last ∧ Holds g last own file := by
  cases entry with
  | inl other =>
    cases List.mem_singleton.mp inside
    exact .inl ⟨rfl,list,listed,row⟩
  | inr next =>
    obtain ⟨piece,deeper⟩ := Option.isSome_iff_exists.mp walked
    rw [deeper] at inside
    obtain ⟨labels,last,own,route,holds⟩ := (walk_member deeper).mp inside
    exact .inr ⟨next,labels,last,own,rfl,.down listed row route,holds⟩

variable {key : File → Key}

theorem single_nodup (own : ∀ one two label other file same, Holds g one label file → Holds g two other same → key file = key same → one = two ∧ label = other)
    (single : Single g node) (walked : walk g fuel node = some out) : (out.map key).Nodup := by
  induction fuel generalizing node out with
  | zero => cases walked
  | succ fuel ih =>
    obtain ⟨list,listed,every,rfl⟩ := walk_parts.mp walked
    rw [List.map_flatMap,List.nodup_flatMap]
    constructor
    · rintro ⟨label,row⟩ member
      cases row with
      | inl file => exact List.nodup_singleton _
      | inr next =>
        obtain ⟨piece,deeper⟩ := Option.isSome_iff_exists.mp (every _ member)
        have below : Single g next := by
          intro one two last own file first second holds
          exact (List.cons.inj (single (label::one) (label::two) last own file (.down listed member first) (.down listed member second) holds)).2
        have apart := ih below deeper
        rw [deeper]
        exact apart
    · have labels : list.Pairwise fun one two => one.1 ≠ two.1 := List.pairwise_map.mp (g.distinct node list listed)
      refine labels.imp_of_mem ?_
      rintro ⟨label,row⟩ ⟨other,entry⟩ first second differs found left right
      obtain ⟨file,inside,rfl⟩ := List.mem_map.mp left
      obtain ⟨same,there,alike⟩ := List.mem_map.mp right
      -- The two rows lead to one file by different routes.
      rcases piece_member listed first (every _ first) inside with ⟨_,holds⟩ | ⟨_,routes,last,name,_,route,holds⟩
      · rcases piece_member listed second (every _ second) there with ⟨_,holds'⟩ | ⟨_,routes',last',name',_,route',holds'⟩
        · exact differs (own _ _ _ _ _ _ holds holds' alike.symm).2
        · obtain ⟨rfl,_⟩ := own _ _ _ _ _ _ holds holds' alike.symm
          cases single [] _ _ _ _ (.here _) route' holds
      · rcases piece_member listed second (every _ second) there with ⟨_,holds'⟩ | ⟨_,routes',last',name',_,route',holds'⟩
        · obtain ⟨rfl,_⟩ := own _ _ _ _ _ _ holds holds' alike.symm
          cases single _ [] _ _ _ route (.here _) holds'
        · obtain ⟨rfl,_⟩ := own _ _ _ _ _ _ holds holds' alike.symm
          exact differs (List.cons.inj (single _ _ _ _ _ route route' holds)).1

theorem nodup_single (walked : walk g fuel node = some out) (once : (out.map key).Nodup) : Single g node := by
  intro one two last label file first second holds
  induction one generalizing fuel node out two with
  | nil =>
    cases first
    cases two with
    | nil => rfl
    | cons other two => cases walked_acyclic walked [] _ _ (.here _) second
  | cons start one ih =>
    cases two with
    | nil =>
      cases second
      cases walked_acyclic walked [] _ _ (.here _) first
    | cons other two =>
      cases fuel with
      | zero => cases walked
      | succ fuel =>
        obtain ⟨list,listed,every,rfl⟩ := walk_parts.mp walked
        rw [List.map_flatMap,List.nodup_flatMap] at once
        obtain ⟨known,next,same,row,rest⟩ := route_down first
        rw [listed] at same
        cases same
        obtain ⟨known,after,same,entry,further⟩ := route_down second
        rw [listed] at same
        cases same
        obtain ⟨piece,deeper⟩ := Option.isSome_iff_exists.mp (every _ row)
        obtain ⟨part,beside⟩ := Option.isSome_iff_exists.mp (every _ entry)
        by_cases alike : start = other
        · subst alike
          cases row_unique listed row entry
          have inner := once.1 _ row
          rw [deeper] at inner
          rw [ih deeper inner two rest further]
        · have symmetric : Std.Symm (Function.onFun List.Disjoint fun a : Label × (File ⊕ Node) => ((visit (walk g fuel) a.2).getD []).map key) :=
            ⟨fun _ _ apart => apart.symm⟩
          have apart := once.2.forall row entry (fun same => alike (congrArg Prod.fst same))
          have left : file ∈ (visit (walk g fuel) (.inr next)).getD [] := by
            rw [deeper]
            exact (walk_member deeper).mpr ⟨one,last,label,rest,holds⟩
          have right : file ∈ (visit (walk g fuel) (.inr after)).getD [] := by
            rw [beside]
            exact (walk_member beside).mpr ⟨two,last,label,further,holds⟩
          exact absurd (List.mem_map_of_mem right) (apart (List.mem_map_of_mem left))

end Results

end RemoteFileExplorer.GraphWalks

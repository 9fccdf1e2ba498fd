import RemoteFileExplorer.RemotePaths

namespace RemoteFileExplorer.PickedNames
open CodeUnits RemotePaths

def allDots (text : Units) : Bool := text ≠ [] && text.all (· = dot)

-- The last component of what the picker reports, without U+0000 to U+001F.
def visible (name : Units) : Units := ((name.splitOnP isSep).getLastD []).filter (0x20 ≤ ·)

def cleanUploadName (name : Units) : Units :=
  let cleaned := trim (if allDots (visible name) then [] else visible name)
  if cleaned = [] then ascii "file" else cleaned.rtake 200

def staged (dir : List Units) (name : Units) : Units := (Path.posix dir).text ++ slash::name

def isControl (u : UInt16) : Bool := u ≤ 0x1f || (0x7f ≤ u && u ≤ 0x9f)

structure Contained (folder : Path) (name : Units) : Prop where
  solid : cleanUploadName name ≠ []
  here : cleanUploadName name ≠ [dot]
  above : cleanUploadName name ≠ [dot,dot]
  slash : slash ∉ cleanUploadName name
  backslash : backslash ∉ cleanUploadName name
  control : ∀ u ∈ cleanUploadName name,isControl u = false
  stable : cleanUploadName (cleanUploadName name) = cleanUploadName name
  remote : joinRemotePath folder.text (cleanUploadName name) = (folder.child (cleanUploadName name)).text
  staging : ∀ dir, dir ≠ [] → staged dir (cleanUploadName name) = ((Path.posix dir).child (cleanUploadName name)).text

-- What the last 200 units of a trimmed name must not be.
structure Fits (core : Units) : Prop where
  undotted : allDots (core.rtake 200) = false
  front : ∀ u, (core.rtake 200).head? = some u → isWhite u = false
  printed : ∀ u ∈ core.rtake 200,¬(0x7f ≤ u ∧ u ≤ 0x9f)

def Fitting (name : Units) : Prop := allDots (visible name) = true ∨ trim (visible name) = [] ∨ Fits (trim (visible name))

theorem visible_free (name : Units) (inside : u ∈ visible name) : isSep u = false ∧ 0x20 ≤ u := by
  rw [visible,List.mem_filter] at inside
  have part : (name.splitOnP isSep).getLastD [] ∈ name.splitOnP isSep := by
    rw [List.getLastD_eq_getLast?,List.getLast?_eq_some_getLast (List.splitOnP_ne_nil isSep name)]
    exact List.getLast_mem _
  exact ⟨split_free part u inside.1,by simpa using inside.2⟩

theorem visible_same (free : ∀ u ∈ name,isSep u = false ∧ 0x20 ≤ u) : visible name = name := by
  rw [visible,List.splitOnP_eq_singleton (fun u inside => (free u inside).1)]
  simpa using fun u inside => (free u inside).2

theorem rtake_mem {text : Units} (inside : u ∈ text.rtake n) : u ∈ text := List.mem_of_mem_drop inside

theorem rtake_short {text : Units} (short : text.length ≤ n) : text.rtake n = text := by
  rw [List.rtake,Nat.sub_eq_zero_of_le short,List.drop_zero]

theorem rtake_length (text : Units) (n : Nat) : (text.rtake n).length ≤ n := by
  rw [List.rtake,List.length_drop]
  omega

theorem rtake_last {text : Units} (some : 0 < n) : (text.rtake n).getLast? = text.getLast? := by
  cases text with
  | nil => simp
  | cons u rest =>
      rw [List.rtake,List.getLast?_drop,if_neg]
      simp only [List.length_cons]
      omega

theorem clean_free (free : ∀ u ∈ name,isSep u = false ∧ 0x20 ≤ u) (undotted : allDots name = false) :
    cleanUploadName name = if trim name = [] then ascii "file" else (trim name).rtake 200 := by
  simp [cleanUploadName,visible_same free,undotted]

theorem clean_default (default : allDots (visible name) = true ∨ trim (visible name) = []) : cleanUploadName name = ascii "file" := by
  unfold cleanUploadName
  rcases default with dots | white
  · simp [dots]
  · cases allDots (visible name) <;> simp [white]

theorem clean_tail (undotted : allDots (visible name) = false) (solid : trim (visible name) ≠ []) :
    cleanUploadName name = (trim (visible name)).rtake 200 := by
  simp [cleanUploadName,undotted,solid]

theorem tail_free (name : Units) (inside : u ∈ (trim (visible name)).rtake 200) : isSep u = false ∧ 0x20 ≤ u :=
  visible_free name (trim_mem (rtake_mem inside))

theorem tail_solid {text : Units} (solid : text ≠ []) : text.rtake 200 ≠ [] := by
  intro none
  have last : (text.rtake 200).getLast? = text.getLast? := rtake_last (by decide)
  rw [none,List.getLast?_nil,eq_comm,List.getLast?_eq_none_iff] at last
  exact solid last

theorem control_iff (u : UInt16) (printed : 0x20 ≤ u) : isControl u = false ↔ ¬(0x7f ≤ u ∧ u ≤ 0x9f) := by
  have above : ¬u ≤ 0x1f := by
    rw [UInt16.le_iff_toNat_le] at printed ⊢
    simp at printed ⊢
    omega
  simp [isControl,above]

theorem sep_iff (u : UInt16) : isSep u = false ↔ u ≠ slash ∧ u ≠ backslash := by
  simp [isSep]

theorem clean_seps (name : Units) (inside : u ∈ cleanUploadName name) : isSep u = false := by
  by_cases default : allDots (visible name) = true ∨ trim (visible name) = []
  · rw [clean_default default] at inside
    have all : (ascii "file").all (!isSep ·) = true := by decide
    simpa using List.all_eq_true.mp all u inside
  · obtain ⟨dots,white⟩ := not_or.mp default
    rw [clean_tail (Bool.eq_false_iff.mpr dots) white] at inside
    exact (tail_free name inside).1

theorem clean_solid (name : Units) : cleanUploadName name ≠ [] := by
  by_cases default : allDots (visible name) = true ∨ trim (visible name) = []
  · rw [clean_default default]
    decide
  · obtain ⟨dots,white⟩ := not_or.mp default
    rw [clean_tail (Bool.eq_false_iff.mpr dots) white]
    exact tail_solid white

theorem tail_stable (name : Units) (solid : trim (visible name) ≠ []) :
    cleanUploadName ((trim (visible name)).rtake 200) = (trim (visible name)).rtake 200 ↔
      allDots ((trim (visible name)).rtake 200) = false ∧ ∀ u, ((trim (visible name)).rtake 200).head? = some u → isWhite u = false := by
  have free := fun u => tail_free (u := u) name
  have short := rtake_length (trim (visible name)) 200
  have last : ((trim (visible name)).rtake 200).getLast? = (trim (visible name)).getLast? := rtake_last (by decide)
  have lasts : ∀ u, ((trim (visible name)).rtake 200).getLast? = some u → isWhite u = false := fun u same => trim_last (last ▸ same)
  have some := tail_solid solid
  generalize (trim (visible name)).rtake 200 = tail at *
  constructor
  · intro same
    have undotted : allDots tail = false := by
      rw [Bool.eq_false_iff]
      intro dots
      rw [clean_default (.inl ((visible_same free).symm ▸ dots))] at same
      rw [← same] at dots
      exact absurd dots (by decide)
    refine ⟨undotted,fun u head => ?_⟩
    rw [clean_free free undotted] at same
    split at same
    next white =>
      rw [← same] at white
      exact absurd white (by decide)
    next =>
      have length := trim_length tail
      rw [rtake_short (by omega)] at same
      exact trim_head (by rwa [same])
  · rintro ⟨undotted,front⟩
    have trimmed := (trim_same_iff tail).mpr ⟨front,lasts⟩
    rw [clean_free free undotted,trimmed,if_neg some,rtake_short short]

-- A character of "file" is looked at on the list: the code units are finite,
-- and deciding over them all runs through each one.
theorem file_printed : ∀ u ∈ ascii "file",isControl u = false := by
  intro u inside
  have all : (ascii "file").all (!isControl ·) = true := by decide
  simpa using List.all_eq_true.mp all u inside

theorem file_contained (valid : folder.Valid) (plain : folder.Plain) (default : cleanUploadName name = ascii "file") : Contained folder name := by
  refine ⟨?_,?_,?_,?_,?_,?_,?_,join_child valid plain _,fun dir some => (child_text_posix some _).symm⟩
  all_goals rw [default]
  case refine_6 => exact file_printed
  all_goals decide

theorem dots_all (text : Units) (same : text = [dot] ∨ text = [dot,dot]) : allDots text = true := by
  rcases same with rfl | rfl
  · decide
  · decide

theorem picked_contained_iff (folder : Path) (valid : folder.Valid) (name : Units) :
    Contained folder name ↔ Fitting name ∧ folder.Plain := by
  constructor
  · intro contained
    refine ⟨?_,join_plain folder contained.remote⟩
    by_cases dots : allDots (visible name) = true
    · exact .inl dots
    · by_cases white : trim (visible name) = []
      · exact .inr (.inl white)
      · have tail := clean_tail (Bool.eq_false_iff.mpr dots) white
        have stable := contained.stable
        have control := contained.control
        rw [tail] at stable control
        obtain ⟨undotted,front⟩ := (tail_stable name white).mp stable
        exact .inr (.inr ⟨undotted,front,fun u inside => (control_iff u (tail_free name inside).2).mp (control u inside)⟩)
  · rintro ⟨fitting,plain⟩
    by_cases default : allDots (visible name) = true ∨ trim (visible name) = []
    · exact file_contained valid plain (clean_default default)
    · obtain ⟨dots,white⟩ := not_or.mp default
      have fits : Fits (trim (visible name)) := (fitting.resolve_left dots).resolve_left white
      have tail := clean_tail (Bool.eq_false_iff.mpr dots) white
      have free := fun u => tail_free (u := u) name
      refine ⟨?_,?_,?_,?_,?_,?_,?_,join_child valid plain _,fun dir some => (child_text_posix some _).symm⟩
      all_goals rw [tail]
      · exact tail_solid white
      · intro same
        exact absurd (dots_all _ (.inl same)) (Bool.eq_false_iff.mp fits.undotted)
      · intro same
        exact absurd (dots_all _ (.inr same)) (Bool.eq_false_iff.mp fits.undotted)
      · exact fun inside => ((sep_iff _).mp (free _ inside).1).1 rfl
      · exact fun inside => ((sep_iff _).mp (free _ inside).1).2 rfl
      · exact fun u inside => (control_iff u (free u inside).2).mpr (fits.printed u inside)
      · exact (tail_stable name white).mpr ⟨fits.undotted,fits.front⟩

theorem picked_leaves : cleanUploadName (ascii " ..") = ascii ".." ∧ ¬Contained (.posix [ascii "home"]) (ascii " ..") := by
  have cleaned : cleanUploadName (ascii " ..") = ascii ".." := by decide
  refine ⟨cleaned,fun contained => contained.above ?_⟩
  rw [cleaned]
  decide

theorem picked_contained_plain : Contained (.posix [ascii "home"]) (ascii "../a.txt") := by
  have shown : (trim (visible (ascii "../a.txt"))).rtake 200 = ascii "a.txt" := by decide
  have fits : Fits (trim (visible (ascii "../a.txt"))) := by
    constructor
    · rw [shown]
      decide
    · rw [shown]
      intro u first
      cases first
      decide
    · rw [shown]
      intro u inside
      have all : (ascii "a.txt").all (fun u => !decide (0x7f ≤ u ∧ u ≤ 0x9f)) = true := by decide
      exact of_decide_eq_false (Bool.not_eq_true' _ ▸ List.all_eq_true.mp all u inside)
  refine (picked_contained_iff _ ⟨by decide,trivial⟩ _).mpr ⟨.inr (.inr fits),?_⟩
  decide

end RemoteFileExplorer.PickedNames

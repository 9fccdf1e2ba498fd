import Mathlib.Data.List.Infix
import RemoteFileExplorer.SidecarFrames

namespace RemoteFileExplorer.FrameCuts
open ByteStreams SidecarFrames

abbrev wires (frames : List Frame) : Bytes := (frames.map wire).flatten

def cutFrames : List Frame → Bytes → List Frame × Bytes
  | [],left => ([],left)
  | f::rest,left =>
    if (wire f).isPrefixOf left then
      let (held,piece) := cutFrames rest (left.drop (wire f).length)
      (f::held,piece)
    else ([],left)

-- A connection that is lost after some frame and before the next.
def Between (sent : List Frame) (cut : Bytes) : Prop := ∃ front ∈ sent.inits, cut = wires front

instance (sent : List Frame) (cut : Bytes) : Decidable (Between sent cut) := inferInstanceAs (Decidable (∃ front ∈ sent.inits, cut = wires front))

theorem wire_length (f : Frame) : (wire f).length = f.payload.length + 5 := by
  simp [wire]
  omega

theorem cutFrames_parts (part : cut <+: wires sent) :
    cut = wires (cutFrames sent cut).1 ++ (cutFrames sent cut).2 ∧ (cutFrames sent cut).1 <+: sent ∧
    ((cutFrames sent cut).2 = [] ∨ ∃ f ∈ sent, (cutFrames sent cut).2 <+: wire f ∧ (cutFrames sent cut).2.length < (wire f).length) := by
  induction sent generalizing cut with
  | nil =>
    have nothing : cut = [] := List.prefix_nil.mp part
    subst nothing
    exact ⟨rfl,List.prefix_refl _,.inl rfl⟩
  | cons f rest ih =>
    unfold cutFrames
    have whole : wires (f::rest) = wire f ++ wires rest := by simp [wires]
    split
    · rename_i holds
      have begins : wire f <+: cut := List.isPrefixOf_iff_prefix.mp holds
      obtain ⟨more,rfl⟩ := begins
      have later : more <+: wires rest := (List.prefix_append_right_inj (wire f)).mp part
      rw [List.drop_left]
      obtain ⟨same,front,piece⟩ := ih later
      refine ⟨?_,(List.prefix_cons_inj f).mpr front,?_⟩
      · have parts : wires (f::(cutFrames rest more).1) = wire f ++ wires (cutFrames rest more).1 := by simp [wires]
        rw [parts,List.append_assoc,← same]
      · rcases piece with empty | ⟨g,member,begins,short⟩
        · exact .inl empty
        · exact .inr ⟨g,List.mem_cons_of_mem _ member,begins,short⟩
    · rename_i torn
      refine ⟨by simp [wires],List.nil_prefix,.inr ⟨f,List.mem_cons_self,?_⟩⟩
      rcases List.prefix_or_prefix_of_prefix part (List.prefix_append (wire f) (wires rest)) with inside | whole
      · refine ⟨inside,Nat.lt_of_le_of_ne inside.length_le fun same => torn ?_⟩
        rw [inside.eq_of_length same]
        exact List.isPrefixOf_iff_prefix.mpr (List.prefix_refl _)
      · exact absurd (List.isPrefixOf_iff_prefix.mpr whole) torn

theorem readFrames_front (reads : Reads readFrame) (front : List Frame)
    (small : ∀ f ∈ front, fits f = true) (whole : content r = wires front ++ piece) (more : Nat) :
    ∃ later, content later = piece ∧
      readFrames readFrame (front.length + more) r = (front ++ (readFrames readFrame more later).1,(readFrames readFrame more later).2) := by
  induction front generalizing r with
  | nil => exact ⟨r,by simpa [wires] using whole,by simp⟩
  | cons f rest ih =>
    have split : content r = wire f ++ (wires rest ++ piece) := by simpa [wires] using whole
    obtain ⟨next,taken,left⟩ := reads.takes r f _ (small f List.mem_cons_self) split
    obtain ⟨later,holds,tail⟩ := ih (fun g member => small g (List.mem_cons_of_mem f member)) left
    refine ⟨later,holds,?_⟩
    rw [show (f::rest).length + more = rest.length + more + 1 by simp; omega]
    simp [readFrames,taken,tail]

theorem fill_all (holds : content r = piece) (short : piece.length ≤ want) :
    ∃ later, fill want r = (piece,later) ∧ content later = [] := by
  obtain ⟨taken,left⟩ := fill_content want r
  rw [holds,List.take_of_length_le short] at taken
  rw [holds,List.drop_of_length_le short] at left
  exact ⟨_,Prod.ext taken rfl,left⟩

theorem rust_torn (small : fits f = true) (holds : content r = piece) (begins : piece <+: wire f)
    (short : piece.length < (wire f).length) :
    (piece.length < 4 → Rust.readFrame r = .endOfStream) ∧ (4 ≤ piece.length → ∃ e, Rust.readFrame r = .failed e) := by
  constructor
  · intro early
    obtain ⟨later,filled,_⟩ := fill_all holds (Nat.le_of_lt early)
    simp only [Rust.readFrame,filled]
    rw [if_pos early]
  · intro late
    have header : be32 (f.payload.length + 1) <+: piece := by
      refine List.prefix_of_prefix_length_le ?_ begins (by rw [be32_length]; exact late)
      exact List.prefix_append _ _
    obtain ⟨body,rfl⟩ := header
    have inside : body <+: f.kind::f.payload := (List.prefix_append_right_inj _).mp begins
    rw [wire_length,List.length_append,be32_length] at short
    obtain ⟨good,decoded⟩ := length_ok small
    obtain ⟨afterLen,lenFilled,lenLeft⟩ := fill_front holds (be32_length _)
    simp only [Rust.readFrame,lenFilled,be32_length,if_neg (Nat.lt_irrefl 4),decoded,if_neg good]
    cases body with
    | nil =>
      obtain ⟨afterKind,kindFilled⟩ := fill_end 1 lenLeft
      rw [kindFilled]
      exact ⟨_,rfl⟩
    | cons kind payload =>
      have split : content afterLen = [kind] ++ payload := lenLeft
      obtain ⟨afterKind,kindFilled,kindLeft⟩ := fill_front split List.length_singleton
      rw [List.length_cons] at short
      obtain ⟨later,filled,_⟩ := fill_all kindLeft (show payload.length ≤ f.payload.length + 1 - 1 by omega)
      rw [kindFilled]
      dsimp only
      rw [filled]
      dsimp only
      rw [if_pos (by omega)]
      exact ⟨_,rfl⟩

theorem truncation_reported_iff (frames : List Frame) (r : Source UInt8) (more : Nat)
    (part : content r <+: writeFrames Rust.writeFrame frames) (inside : ¬ Between (frames.filter fits) (content r)) :
    (∃ e, readFrames Rust.readFrame ((cutFrames (frames.filter fits) (content r)).1.length + 1 + more) r =
        ((cutFrames (frames.filter fits) (content r)).1,.failed e)) ↔
      4 ≤ (cutFrames (frames.filter fits) (content r)).2.length := by
  rw [writeFrames_wire rust_writes] at part
  obtain ⟨whole,front,left⟩ := cutFrames_parts part
  have small : ∀ f ∈ frames.filter fits, fits f = true := fun f member => (List.mem_filter.mp member).2
  rcases left with empty | ⟨f,member,begins,short⟩
  · rw [empty,List.append_nil] at whole
    exact absurd ⟨_,(List.mem_inits _ _).mpr front,whole⟩ inside
  · obtain ⟨later,holds,read⟩ := readFrames_front rust_reads _ (fun g listed => small g (front.subset listed)) whole (1 + more)
    obtain ⟨early,late⟩ := rust_torn (small f member) holds begins short
    rw [Nat.add_assoc,read,Nat.add_comm 1 more]
    constructor
    · intro reported
      obtain ⟨e,same⟩ := reported
      by_contra few
      simp [readFrames,early (Nat.not_le.mp few)] at same
    · intro enough
      obtain ⟨e,failed⟩ := late enough
      exact ⟨e,by simp [readFrames,failed]⟩

theorem torn_message_reported : ∃ e, readFrames Rust.readFrame 2 [⟨[0,0,0,3,0,123,125,0,0],by simp⟩,⟨[0,2,1],by simp⟩] =
    ([⟨0,[123,125]⟩],.failed e) :=
  (truncation_reported_iff [⟨0,[123,125]⟩,⟨1,[7]⟩] [⟨[0,0,0,3,0,123,125,0,0],by simp⟩,⟨[0,2,1],by simp⟩] 0 (by decide) (by decide)).mpr
    (by decide)

theorem torn_length_unreported : ¬ ∀ (frames : List Frame) (r : Source UInt8) (more : Nat), content r <+: writeFrames Rust.writeFrame frames →
    ¬ Between (frames.filter fits) (content r) → ∃ e, readFrames Rust.readFrame ((cutFrames (frames.filter fits) (content r)).1.length + 1 + more) r =
      ((cutFrames (frames.filter fits) (content r)).1,.failed e) := by
  intro always
  obtain ⟨e,reported⟩ := always [⟨0,[123,125]⟩] [⟨[0,0],by simp⟩] 0 (by decide) (by decide)
  have clean : readFrames Rust.readFrame 1 [⟨[0,0],by simp⟩] = ([],.clean) := rfl
  have nothing : (cutFrames ([(⟨0,[123,125]⟩ : Frame)].filter fits) [0,0]).1 = [] := by decide
  change readFrames Rust.readFrame ((cutFrames ([(⟨0,[123,125]⟩ : Frame)].filter fits) [0,0]).1.length + 1 + 0) _ = _ at reported
  rw [nothing] at reported
  rw [show ([] : List Frame).length + 1 + 0 = 1 from rfl,clean] at reported
  cases reported

end RemoteFileExplorer.FrameCuts

import RemoteFileExplorer.CodeUnits

namespace RemoteFileExplorer.CsvRows
open CodeUnits

def quote : UInt16 := 0x22
def comma : UInt16 := 0x2c
def lineFeed : UInt16 := 0xa
def carriage : UInt16 := 0xd

structure Reader where
  rows : List (List Units)
  row : List Units
  field : Units
  inQuotes : Bool
  fieldQuoted : Bool
  deriving DecidableEq,Repr

def initial : Reader := ⟨[],[],[],false,false⟩

def Reader.endField (r : Reader) : Reader :=
  { r with row := r.row ++ [if r.fieldQuoted then r.field else trim r.field], field := [], fieldQuoted := false }

def Reader.endRow (r : Reader) : Reader :=
  let r := r.endField
  { r with rows := if r.row = [[]] then r.rows else r.rows ++ [r.row], row := [] }

def Reader.plain (r : Reader) (ch : UInt16) : Reader :=
  if ch = quote ∧ r.field.length = 0 then { r with inQuotes := true, fieldQuoted := true } else
  if ch = comma then r.endField else
  if ch = lineFeed then r.endRow else
  if ch ≠ carriage then { r with field := r.field ++ [ch] } else r

-- The character loop. Inside quotes it looks one character ahead.
def Reader.read (r : Reader) : Units → Reader
  | [] => r
  | [ch] =>
    if r.inQuotes then
      if ch = quote then { r with inQuotes := false } else { r with field := r.field ++ [ch] }
    else r.plain ch
  | ch::next::rest =>
    if r.inQuotes then
      if ch = quote then
        if next = quote then Reader.read { r with field := r.field ++ [quote] } rest
        else Reader.read { r with inQuotes := false } (next::rest)
      else Reader.read { r with field := r.field ++ [ch] } (next::rest)
    else Reader.read (r.plain ch) (next::rest)

def Reader.finish (r : Reader) : List (List Units) :=
  if r.field.length > 0 ∨ r.row.length > 0 then r.endRow.rows else r.rows

def parseCsvRows (text : Units) : List (List Units) := (initial.read text).finish

def escaped (field : Units) : Units := field.flatMap fun u => if u = quote then [quote,quote] else [u]

structure Safe (field : Units) : Prop where
  comma : comma ∉ field
  quote : quote ∉ field
  carriage : carriage ∉ field
  lineFeed : lineFeed ∉ field
  trimmed : trim field = field

inductive FieldText : Units → Units → Prop where
  | quoted (field : Units) : FieldText field (quote::escaped field ++ [quote])
  | bare (safe : Safe field) : FieldText field field

inductive RowText : List Units → Units → Prop where
  | last (field : FieldText f text) : RowText [f] text
  | more (field : FieldText f text) (rest : RowText row texts) : RowText (f::row) (text ++ comma::texts)

inductive RowEnd : Units → Prop where
  | lf : RowEnd [lineFeed]
  | crlf : RowEnd [carriage,lineFeed]

inductive TableText : List (List Units) → Units → Prop where
  | empty : TableText [] []
  | unended (row : RowText r text) : TableText [r] text
  | more (row : RowText r text) (ending : RowEnd stop) (rest : TableText table texts) : TableText (r::table) (text ++ (stop ++ texts))

theorem read_plain (r : Reader) (ch : UInt16) (rest : Units) (outside : r.inQuotes = false) :
    r.read (ch::rest) = (r.plain ch).read rest := by
  cases rest with
  | nil | cons next rest => simp [Reader.read,outside]

theorem read_kept (r : Reader) (ch : UInt16) (rest : Units) (inside : r.inQuotes = true) (other : ch ≠ quote) :
    r.read (ch::rest) = Reader.read { r with field := r.field ++ [ch] } rest := by
  cases rest with
  | nil | cons next rest => simp [Reader.read,inside,other]

theorem read_doubled (r : Reader) (rest : Units) (inside : r.inQuotes = true) :
    r.read (quote::quote::rest) = Reader.read { r with field := r.field ++ [quote] } rest := by
  simp [Reader.read,inside]

theorem read_closing (r : Reader) (rest : Units) (inside : r.inQuotes = true) (other : rest.head? ≠ some quote) :
    r.read (quote::rest) = Reader.read { r with inQuotes := false } rest := by
  cases rest with
  | nil => simp [Reader.read,inside]
  | cons next rest =>
      have different : next ≠ quote := by simpa using other
      simp [Reader.read,inside,different]

theorem read_escaped (field rest : Units) (r : Reader) (inside : r.inQuotes = true) :
    r.read (escaped field ++ rest) = Reader.read { r with field := r.field ++ field } rest := by
  induction field generalizing r with
  | nil => simp [escaped]
  | cons u field ih =>
      have onward := ih { r with field := r.field ++ [u] } inside
      simp only [List.append_assoc,List.singleton_append] at onward
      by_cases same : u = quote
      · subst same
        have text : escaped (quote::field) ++ rest = quote::quote::(escaped field ++ rest) := by simp [escaped]
        rw [text,read_doubled r _ inside,onward]
      · have text : escaped (u::field) ++ rest = u::(escaped field ++ rest) := by simp [escaped,same]
        rw [text,read_kept r u _ inside same,onward]

theorem read_bare (field rest : Units) (r : Reader) (outside : r.inQuotes = false) (c : comma ∉ field)
    (q : quote ∉ field) (cr : carriage ∉ field) (lf : lineFeed ∉ field) :
    r.read (field ++ rest) = Reader.read { r with field := r.field ++ field } rest := by
  induction field generalizing r with
  | nil => simp
  | cons u field ih =>
      simp only [List.mem_cons,not_or] at c q cr lf
      have step : r.plain u = { r with field := r.field ++ [u] } := by
        simp [Reader.plain,Ne.symm c.1,Ne.symm q.1,Ne.symm cr.1,Ne.symm lf.1]
      have onward := ih { r with field := r.field ++ [u] } outside c.2 q.2 cr.2 lf.2
      simp only [List.append_assoc,List.singleton_append] at onward
      rw [List.cons_append,read_plain r u _ outside,step,onward]

structure Fresh (r : Reader) : Prop where
  field : r.field = []
  inQuotes : r.inQuotes = false
  fieldQuoted : r.fieldQuoted = false

structure Holding (r s : Reader) (fields : List Units) : Prop where
  inQuotes : s.inQuotes = false
  ended : s.endField = { r with row := r.row ++ fields }

theorem read_field (written : FieldText field text) (rest : Units) (fresh : Fresh r) (other : rest.head? ≠ some quote) :
    ∃ s, Holding r s [field] ∧ r.read (text ++ rest) = s.read rest := by
  cases written with
  | quoted =>
      refine ⟨{ r with field := field, fieldQuoted := true },⟨fresh.inQuotes,?_⟩,?_⟩
      · simp [Reader.endField,← fresh.field,← fresh.fieldQuoted]
      · have opened : r.plain quote = { r with inQuotes := true, fieldQuoted := true } := by simp [Reader.plain,fresh.field]
        rw [List.append_assoc,List.cons_append,read_plain r quote _ fresh.inQuotes,opened,read_escaped field _ _ rfl,
          List.singleton_append,read_closing _ rest rfl other]
        simp [fresh.field,← fresh.inQuotes]
  | bare safe =>
      refine ⟨{ r with field := field },⟨fresh.inQuotes,?_⟩,?_⟩
      · simp [Reader.endField,safe.trimmed,fresh.fieldQuoted,← fresh.field]
      · rw [read_bare field rest r fresh.inQuotes safe.comma safe.quote safe.carriage safe.lineFeed]
        simp [fresh.field]

theorem read_comma (holding : Holding r s fields) (rest : Units) :
    s.read (comma::rest) = Reader.read { r with row := r.row ++ fields } rest := by
  have step : s.plain comma = s.endField := by simp [Reader.plain,comma,quote]
  rw [read_plain s comma rest holding.inQuotes,step,holding.ended]

theorem read_row (written : RowText row text) (rest : Units) (fresh : Fresh r) (other : rest.head? ≠ some quote) :
    ∃ s, Holding r s row ∧ r.read (text ++ rest) = s.read rest := by
  induction written generalizing r with
  | last field => exact read_field field rest fresh other
  | @more f text row texts field _ ih =>
      obtain ⟨first,held,readFirst⟩ := read_field field (comma::(texts ++ rest)) fresh (by simp [comma,quote])
      obtain ⟨s,holding,readRest⟩ := ih (r := { r with row := r.row ++ [f] }) ⟨fresh.field,fresh.inQuotes,fresh.fieldQuoted⟩
      refine ⟨s,⟨holding.inQuotes,?_⟩,?_⟩
      · simpa using holding.ended
      · rw [List.append_assoc,List.cons_append,readFirst,read_comma held,readRest]

theorem row_ended (holding : Holding r s row) (start : r.row = []) (solid : row ≠ [[]]) :
    s.endRow = { r with rows := r.rows ++ [row] } := by
  simp [Reader.endRow,holding.ended,start,solid]

theorem read_ending (ending : RowEnd stop) (holding : Holding r s row) (start : r.row = []) (solid : row ≠ [[]]) (rest : Units) :
    s.read (stop ++ rest) = Reader.read { r with rows := r.rows ++ [row] } rest := by
  have feed : s.plain lineFeed = s.endRow := by simp [Reader.plain,lineFeed,comma,quote]
  have skipped : s.plain carriage = s := by simp [Reader.plain,carriage,lineFeed,comma,quote]
  cases ending with
  | lf =>
      rw [List.singleton_append,read_plain s lineFeed rest holding.inQuotes,feed,row_ended holding start solid]
  | crlf =>
      rw [List.cons_append,List.singleton_append,read_plain s carriage _ holding.inQuotes,skipped,
        read_plain s lineFeed rest holding.inQuotes,feed,row_ended holding start solid]

theorem ending_other (ending : RowEnd stop) (rest : Units) : (stop ++ rest).head? ≠ some quote := by
  cases ending <;> simp [lineFeed,carriage,quote]

theorem row_open (holding : Holding r s row) (solid : row ≠ [[]]) (start : r.row = []) : s.field.length > 0 ∨ s.row.length > 0 := by
  by_contra closed
  simp only [not_or,not_lt,Nat.le_zero_eq,List.length_eq_zero_iff] at closed
  have fields := congrArg Reader.row holding.ended
  simp only [Reader.endField,closed.1,closed.2,start,List.nil_append] at fields
  apply solid
  rw [← fields]
  cases s.fieldQuoted <;> rfl

theorem read_table (written : TableText table text) (solid : ∀ row ∈ table, row ≠ [[]]) (fresh : Fresh r) (start : r.row = []) :
    (r.read text).finish = r.rows ++ table := by
  induction written generalizing r with
  | empty => simp [Reader.read,Reader.finish,fresh.field,start]
  | @unended row text written =>
      obtain ⟨s,holding,readRow⟩ := read_row written [] fresh (by simp)
      have nonempty := solid row (by simp)
      rw [List.append_nil] at readRow
      rw [readRow,Reader.read,Reader.finish,if_pos (row_open holding nonempty start),row_ended holding start nonempty]
  | @more row text stop table texts written ending _ ih =>
      obtain ⟨s,holding,readRow⟩ := read_row written (stop ++ texts) fresh (ending_other ending texts)
      have nonempty := solid row (by simp)
      have onward := ih (r := { r with rows := r.rows ++ [row] }) (fun other member => solid other (List.mem_cons_of_mem _ member))
        ⟨fresh.field,fresh.inQuotes,fresh.fieldQuoted⟩ start
      rw [readRow,read_ending ending holding start nonempty,onward]
      simp

theorem rows_read_back (written : TableText table text) (solid : ∀ row ∈ table, row ≠ [[]]) : parseCsvRows text = table :=
  read_table written solid ⟨rfl,rfl,rfl⟩ rfl

theorem rows_read_back_quoted :
    parseCsvRows [0x22,0xa,0x22,0x22,0x22,0x2c,0xd,0xa,0x61] = [[[0xa,0x22],[]],[[0x61]]] :=
  rows_read_back
    (.more (.more (.quoted [0xa,0x22]) (.last (.bare ⟨by decide,by decide,by decide,by decide,rfl⟩))) .crlf
      (.unended (.last (.bare ⟨by decide,by decide,by decide,by decide,rfl⟩)))) (by decide)

end RemoteFileExplorer.CsvRows

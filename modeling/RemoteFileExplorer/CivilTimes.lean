import Mathlib.Tactic.Linarith
import RemoteFileExplorer.CivilDates
import RemoteFileExplorer.Numerals
import RemoteFileExplorer.PathTexts

namespace RemoteFileExplorer.CivilTimes
open PathTexts Numerals CivilDates

def padded (width : Nat) (n : Int) : Text :=
  let written := Nat.toDigits 10 n.natAbs
  if n < 0 then '-'::(List.replicate (width - 1 - written.length) '0' ++ written) else List.replicate (width - written.length) '0' ++ written

def civil (days : Int) : Int × Int × Int :=
  let z := days + 719468
  let era := z / 146097
  let doe := z % 146097
  let yoe := (doe - doe / 1460 + doe / 36524 - doe / 146096) / 365
  let y := yoe + era * 400
  let doy := doe - (365 * yoe + yoe / 4 - yoe / 100)
  let mp := (5 * doy + 2) / 153
  let d := doy - (153 * mp + 2) / 5 + 1
  let m := if mp < 10 then mp + 3 else mp - 9
  let y := if m ≤ 2 then y + 1 else y
  (y,m,d)

def rfc3339 (secs : Int) : Text :=
  let days := secs / 86400
  let rem := secs % 86400
  let (y,m,d) := civil days
  padded 4 y ++ '-'::(padded 2 m ++ '-'::(padded 2 d ++ 'T'::(padded 2 (rem / 3600) ++ ':'::(padded 2 (rem % 3600 / 60) ++ ':'::(padded 2 (rem % 60) ++ ['Z'])))))

-- Places are those of characters: a text that is read has an ASCII character at each.
def digits (s : Text) (start stop : Nat) : Option Int :=
  let part := (s.take stop).drop start
  if part = [] ∨ ¬ part.all Char.isDigit then none else
  let n := Nat.ofDigitChars 10 part 0
  if n < 2 ^ 63 then some (n : Int) else none

def daysOf (y m d : Int) : Int :=
  let y := if m ≤ 2 then y - 1 else y
  let era := y / 400
  let yoe := y % 400
  let doy := (153 * ((m + 9) % 12) + 2) / 5 + d - 1
  let doe := yoe * 365 + yoe / 4 - yoe / 100 + doy
  era * 146097 + doe - 719468

def parseUtc (s : Text) : Option Int :=
  if s.length ≠ 20 ∨ s[4]? ≠ some '-' ∨ s[7]? ≠ some '-' ∨ s[10]? ≠ some 'T' ∨ s[13]? ≠ some ':' ∨ s[16]? ≠ some ':' ∨ s[19]? ≠ some 'Z' then none else
  (digits s 0 4).bind fun y => (digits s 5 7).bind fun m => (digits s 8 10).bind fun d =>
  (digits s 11 13).bind fun hh => (digits s 14 16).bind fun mm => (digits s 17 19).bind fun ss =>
  if ¬ (1 ≤ m ∧ m ≤ 12) ∨ ¬ (1 ≤ d ∧ d ≤ 31) ∨ 23 < hh ∨ 59 < mm ∨ 60 < ss then none else
  some (daysOf y m d * 86400 + hh * 3600 + mm * 60 + ss)

theorem era_split {doe : Int} (lower : 0 ≤ doe) (upper : doe < 146097) :
    ∃ century quad single doy : Int, doe = 36524 * century + 1461 * quad + 365 * single + doy ∧ (0 ≤ century ∧ century ≤ 3) ∧ (0 ≤ quad ∧ quad ≤ 24) ∧
      (0 ≤ single ∧ single ≤ 3) ∧ (0 ≤ doy ∧ doy ≤ 365) ∧ (doy = 365 → single = 3 ∧ (quad ≠ 24 ∨ century = 3)) := by
  obtain ⟨century,centuries,passed,within⟩ : ∃ century, (0 ≤ century ∧ century ≤ 3) ∧ 36524 * century ≤ doe ∧ (doe < 36524 * century + 36524 ∨ century = 3) :=
    ⟨min 3 (doe / 36524),by omega,by omega,by omega⟩
  obtain ⟨left,lefts⟩ : ∃ left, doe - 36524 * century = left := ⟨_,rfl⟩
  have span : 0 ≤ left ∧ left ≤ 36524 ∧ (left = 36524 → century = 3) := by omega
  obtain ⟨quad,quads⟩ : ∃ quad, left / 1461 = quad := ⟨_,rfl⟩
  obtain ⟨rest,rests⟩ : ∃ rest, left - 1461 * quad = rest := ⟨_,rfl⟩
  have four : 0 ≤ rest ∧ rest ≤ 1460 ∧ 0 ≤ quad ∧ quad ≤ 24 := by
    clear centuries passed within lefts
    omega
  obtain ⟨single,singles,before,year⟩ : ∃ single, (0 ≤ single ∧ single ≤ 3) ∧ 365 * single ≤ rest ∧ (rest < 365 * single + 365 ∨ single = 3) := by
    clear centuries passed within lefts quads rests span
    exact ⟨min 3 (rest / 365),by omega,by omega,by omega⟩
  refine ⟨century,quad,single,rest - 365 * single,by omega,centuries,by omega,singles,by omega,fun last => ⟨by omega,?_⟩⟩
  by_cases ends : quad = 24
  · exact .inr (span.2.2 (by omega))
  · exact .inl ends

theorem era_year {doe century quad single doy : Int} (split : doe = 36524 * century + 1461 * quad + 365 * single + doy) (centuries : 0 ≤ century ∧ century ≤ 3)
    (quads : 0 ≤ quad ∧ quad ≤ 24) (singles : 0 ≤ single ∧ single ≤ 3) (days : 0 ≤ doy ∧ doy ≤ 365) (leap : doy = 365 → single = 3 ∧ (quad ≠ 24 ∨ century = 3)) :
    (doe - doe / 1460 + doe / 36524 - doe / 146096) / 365 = 100 * century + 4 * quad + single := by
  have skipped : doe / 36524 - doe / 146096 = century := by
    by_cases last : doe = 146096
    · have third : century = 3 := by omega
      rw [last,third]
      rfl
    · have whole : doe / 146096 = 0 := by omega
      have below : doe < 36524 * (century + 1) := by omega
      have above : 36524 * century ≤ doe := by omega
      omega
  obtain ⟨carry,passed⟩ : ∃ carry, (24 * century + quad + 365 * single + doy) / 1460 = carry := ⟨_,rfl⟩
  have within : 0 ≤ doy - carry ∧ doy - carry ≤ 364 := by omega
  have fours : doe / 1460 = 25 * century + quad + carry := by
    clear leap within skipped centuries quads singles days
    omega
  have sum : doe - doe / 1460 + doe / 36524 - doe / 146096 = 365 * (100 * century + 4 * quad + single) + (doy - carry) := by linarith only [split,skipped,fours]
  rw [sum]
  clear sum fours passed leap skipped split
  omega

theorem month_day (days : 0 ≤ doy ∧ doy ≤ 365) (leap : doy = 365 → isLeap year) :
    1 ≤ doy - (153 * ((5 * doy + 2) / 153) + 2) / 5 + 1 ∧
      doy - (153 * ((5 * doy + 2) / 153) + 2) / 5 + 1 ≤ monthLength year (if (5 * doy + 2) / 153 < 10 then (5 * doy + 2) / 153 + 3 else (5 * doy + 2) / 153 - 9) := by
  obtain ⟨mp,month⟩ : ∃ mp, (5 * doy + 2) / 153 = mp := ⟨_,rfl⟩
  have range : 0 ≤ mp ∧ mp ≤ 11 := by omega
  rw [month]
  obtain ⟨least,most⟩ := range
  unfold monthLength
  interval_cases mp <;> norm_num <;> try omega
  split
  · omega
  · rename_i common
    have before : doy ≠ 365 := fun last => common (leap last)
    omega

theorem day_part {doe century quad single doy : Int} (split : doe = 36524 * century + 1461 * quad + 365 * single + doy) (quads : 0 ≤ quad ∧ quad ≤ 24)
    (singles : 0 ≤ single ∧ single ≤ 3) :
    doe - (365 * (100 * century + 4 * quad + single) + (100 * century + 4 * quad + single) / 4 - (100 * century + 4 * quad + single) / 100) = doy := by
  omega

theorem year_leap {century quad era : Int} (quads : 0 ≤ quad ∧ quad ≤ 24) (leap : quad ≠ 24 ∨ century = 3) :
    isLeap (100 * century + 4 * quad + 3 + era * 400 + 1) := by
  refine ⟨by omega,?_⟩
  by_cases ends : quad = 24
  · exact .inr (by omega)
  · exact .inl (by omega)

theorem march_date (year : Int) {doy mp : Int} (days : 0 ≤ doy ∧ doy ≤ 365) (leap : doy = 365 → isLeap (year + 1)) (month : (5 * doy + 2) / 153 = mp) :
    ∃ d : Date, d.day = doy - (153 * mp + 2) / 5 + 1 ∧ d.month = (if mp < 10 then mp + 3 else mp - 9) ∧ d.year = if d.month ≤ 2 then year + 1 else year := by
  have range : 0 ≤ mp ∧ mp ≤ 11 := by omega
  by_cases late : mp < 10
  · have early : doy = 365 → isLeap year := fun last => absurd late (by omega)
    have fit := month_day days early
    rw [month,if_pos late] at fit
    refine ⟨⟨year,mp + 3,_,by omega,fit⟩,rfl,(if_pos late).symm,?_⟩
    rw [if_neg (by dsimp only; omega)]
  · have fit := month_day days leap
    rw [month,if_neg late] at fit
    refine ⟨⟨year + 1,mp - 9,_,by omega,fit⟩,rfl,(if_neg late).symm,?_⟩
    rw [if_pos (by dsimp only; omega)]

theorem civil_date (days : Int) : ∃ d : Date, civil days = (d.year,d.month,d.day) ∧ daysOf d.year d.month d.day = days := by
  obtain ⟨era,eras⟩ : ∃ era, (days + 719468) / 146097 = era := ⟨_,rfl⟩
  obtain ⟨doe,rest⟩ : ∃ doe, (days + 719468) % 146097 = doe := ⟨_,rfl⟩
  have lower : 0 ≤ doe := rest ▸ Int.emod_nonneg _ (by decide)
  have upper : doe < 146097 := rest ▸ Int.emod_lt_of_pos _ (by decide)
  have total : 146097 * era + doe = days + 719468 := by
    rw [← eras,← rest]
    exact Int.mul_ediv_add_emod _ _
  obtain ⟨century,quad,single,doy,split,centuries,quads,singles,within,leap⟩ := era_split lower upper
  have yoe := era_year split centuries quads singles within leap
  have day := day_part split quads singles
  obtain ⟨mp,month⟩ : ∃ mp, (5 * doy + 2) / 153 = mp := ⟨_,rfl⟩
  have leaps : doy = 365 → isLeap (100 * century + 4 * quad + single + era * 400 + 1) := by
    intro last
    rw [(leap last).1]
    exact year_leap quads (leap last).2
  obtain ⟨d,dayed,monthed,yeared⟩ := march_date (100 * century + 4 * quad + single + era * 400) within leaps month
  refine ⟨d,?_,?_⟩
  · unfold civil
    dsimp only
    rw [eras,rest,yoe,day,month,← dayed,← monthed,← yeared]
  · have march : (if d.month ≤ 2 then d.year - 1 else d.year) = 100 * century + 4 * quad + single + era * 400 := by
      split <;> omega
    have turned : (d.month + 9) % 12 = mp := by
      rw [monthed]
      split <;> omega
    have whole : (100 * century + 4 * quad + single + era * 400) / 400 = era := by omega
    have part : (100 * century + 4 * quad + single + era * 400) % 400 = 100 * century + 4 * quad + single := by omega
    unfold daysOf
    dsimp only
    rw [march,turned,whole,part,dayed]
    linarith only [day,total]

theorem beforeMonth_march (year : Int) (small : passed < 12) :
    beforeMonth year passed = (153 * (((passed : Int) + 10) % 12) + 2) / 5 + if passed < 2 then -306 else 59 + if isLeap year then 1 else 0 := by
  by_cases leap : isLeap year
  all_goals interval_cases passed <;> simp [beforeMonth,monthLength,leap]

theorem era_days (y : Int) : y / 400 * 146097 + (y % 400 * 365 + y % 400 / 4 - y % 400 / 100) = 365 * y + leaps y := by
  unfold leaps
  omega

theorem daysOf_number (d : Date) : daysOf d.year d.month d.day = d.number := by
  obtain ⟨passed,month⟩ : ∃ passed : Nat, d.month = passed + 1 := ⟨(d.month - 1).toNat,by have := d.monthed; omega⟩
  have monthed := d.monthed
  have before : d.month.toNat - 1 = passed := by omega
  have table := beforeMonth_march d.year (show passed < 12 by omega)
  have known : leaps 1969 = 477 := rfl
  have shift : (passed : Int) + 1 + 9 = passed + 10 := by omega
  unfold daysOf Date.number beforeYear
  rw [before,table,month,shift,known]
  by_cases early : passed < 2
  · have days := era_days (d.year - 1)
    rw [if_pos early,if_pos (show (passed : Int) + 1 ≤ 2 by omega)]
    linarith only [days]
  · have days := era_days d.year
    have next := leaps_next d.year
    rw [if_neg early,if_neg (show ¬ (passed : Int) + 1 ≤ 2 by omega)]
    linarith only [days,next]

def FourDigits (i : Instant) : Prop := 0 ≤ i.date.year ∧ i.date.year ≤ 9999

def utcText (i : Instant) : Text :=
  fixed 4 i.date.year.toNat ++ '-'::(fixed 2 i.date.month.toNat ++ '-'::(fixed 2 i.date.day.toNat ++
    'T'::(fixed 2 i.hour.toNat ++ ':'::(fixed 2 i.minute.toNat ++ ':'::(fixed 2 i.second.toNat ++ ['Z'])))))

section Texts
variable {i j : Instant}

theorem monthLength_le (year month : Int) : monthLength year month ≤ 31 := by
  unfold monthLength
  split
  · split <;> omega
  · split <;> omega

theorem instant_exists (t : Int) : ∃ i : Instant, i.seconds = t := by
  obtain ⟨d,_,days⟩ := civil_date (t / 86400)
  rw [daysOf_number] at days
  refine ⟨⟨d,t % 86400 / 3600,t % 86400 % 3600 / 60,t % 86400 % 60,by omega,by omega,by omega⟩,?_⟩
  unfold Instant.seconds
  dsimp only
  omega

theorem padded_int (lower : 0 ≤ n) (upper : n < 10 ^ (width + 1)) : padded (width + 1) n = fixed (width + 1) n.toNat := by
  obtain ⟨m,rfl⟩ := Int.eq_ofNat_of_zero_le lower
  have small : m < 10 ^ (width + 1) := by exact_mod_cast upper
  exact padded_fixed small

theorem rfc3339_text (four : FourDigits i) : rfc3339 i.seconds = utcText i := by
  obtain ⟨d,converted,days⟩ := civil_date i.date.number
  rw [daysOf_number] at days
  cases number_injective days
  have whole : i.seconds / 86400 = i.date.number := by
    have := i.houred
    have := i.minuted
    have := i.seconded
    unfold Instant.seconds
    omega
  have rest : i.seconds % 86400 = i.hour * 3600 + i.minute * 60 + i.second := by
    have := i.houred
    have := i.minuted
    have := i.seconded
    unfold Instant.seconds
    omega
  obtain ⟨date,hour,minute,second,houred,minuted,seconded⟩ := i
  obtain ⟨lower,upper⟩ := four
  have hours : (hour * 3600 + minute * 60 + second) / 3600 = hour := by omega
  have minutes : (hour * 3600 + minute * 60 + second) % 3600 / 60 = minute := by omega
  have seconds : (hour * 3600 + minute * 60 + second) % 60 = second := by omega
  have month := date.monthed
  have day := date.dayed
  have length := monthLength_le date.year date.month
  unfold rfc3339 utcText
  dsimp only
  rw [whole,rest,converted]
  rw [hours,minutes,seconds,padded_int lower (show _ < 10 ^ (3 + 1) by omega),
    padded_int (show 0 ≤ date.month by omega) (show _ < 10 ^ (1 + 1) by omega),padded_int (show 0 ≤ date.day by omega) (show _ < 10 ^ (1 + 1) by omega),
    padded_int houred.1 (show _ < 10 ^ (1 + 1) by omega),padded_int minuted.1 (show _ < 10 ^ (1 + 1) by omega),
    padded_int seconded.1 (show _ < 10 ^ (1 + 1) by omega)]

theorem digits_int {s : Text} {start stop width : Nat} {n : Int} (slice : (s.take stop).drop start = fixed (width + 1) n.toNat) (lower : 0 ≤ n)
    (upper : n < 10 ^ (width + 1)) (fits : n < 2 ^ 63) : digits s start stop = some n := by
  obtain ⟨m,rfl⟩ := Int.eq_ofNat_of_zero_le lower
  rw [Int.toNat_natCast] at slice
  have small : m < 10 ^ (width + 1) := by exact_mod_cast upper
  have written : fixed (width + 1) m ≠ [] := by
    rw [← List.length_pos_iff_ne_nil,fixed_length]
    exact Nat.succ_pos _
  have read := value_fixed small
  rw [value] at read
  unfold digits
  rw [slice,if_neg,read,if_pos (by omega)]
  rintro (empty | other)
  · exact written empty
  · exact other (List.all_eq_true.mpr (fixed_digits _ _))

theorem parseUtc_text (four : FourDigits i) : parseUtc (utcText i) = some i.seconds := by
  have month := i.date.monthed
  have day := i.date.dayed
  have length := monthLength_le i.date.year i.date.month
  have houred := i.houred
  have minuted := i.minuted
  have seconded := i.seconded
  obtain ⟨lower,upper⟩ := four
  have years : digits (utcText i) 0 4 = some i.date.year := @digits_int _ 0 4 3 _ rfl (by omega) (by omega) (by omega)
  have months : digits (utcText i) 5 7 = some i.date.month := @digits_int _ 5 7 1 _ rfl (by omega) (by omega) (by omega)
  have days : digits (utcText i) 8 10 = some i.date.day := @digits_int _ 8 10 1 _ rfl (by omega) (by omega) (by omega)
  have hours : digits (utcText i) 11 13 = some i.hour := @digits_int _ 11 13 1 _ rfl (by omega) (by omega) (by omega)
  have minutes : digits (utcText i) 14 16 = some i.minute := @digits_int _ 14 16 1 _ rfl (by omega) (by omega) (by omega)
  have seconds : digits (utcText i) 17 19 = some i.second := @digits_int _ 17 19 1 _ rfl (by omega) (by omega) (by omega)
  unfold parseUtc
  rw [if_neg (by simp [utcText,fixed]),years,months,days,hours,minutes,seconds]
  simp only [Option.bind_some]
  rw [if_neg (by omega),daysOf_number]
  rfl

theorem field_lt {width : Nat} {a b : Int} (lower : 0 ≤ a) (less : a < b) (upper : b < 10 ^ width) (first second : Text) :
    fixed width a.toNat ++ first < fixed width b.toNat ++ second := by
  obtain ⟨n,rfl⟩ := Int.eq_ofNat_of_zero_le lower
  obtain ⟨m,rfl⟩ := Int.eq_ofNat_of_zero_le (show 0 ≤ b by omega)
  refine fixed_lt ?_ ?_ first second
  · exact_mod_cast less
  · exact_mod_cast upper

theorem field_same {front first second : Text} {c : Char} (less : first < second) : front ++ c::first < front ++ c::second :=
  append_lt (List.cons_lt_cons_self.mpr less)

theorem utcText_lt (fourI : FourDigits i) (fourJ : FourDigits j) (before : i.seconds < j.seconds) : utcText i < utcText j := by
  have lengthJ := monthLength_le j.date.year j.date.month
  have dayI := i.date.dayed
  have dayJ := j.date.dayed
  have monthI := i.date.monthed
  have monthJ := j.date.monthed
  have houredI := i.houred
  have houredJ := j.houred
  have minutedI := i.minuted
  have minutedJ := j.minuted
  have secondedI := i.seconded
  have secondedJ := j.seconded
  unfold Instant.seconds at before
  unfold utcText
  rcases lt_trichotomy i.date.year j.date.year with less | year | more
  · obtain ⟨lower,_⟩ := fourI
    obtain ⟨_,upper⟩ := fourJ
    exact field_lt lower less (by omega) _ _
  · rw [year]
    apply field_same
    rcases lt_trichotomy i.date.month j.date.month with less | month | more
    · exact field_lt (by omega) less (by omega) _ _
    · rw [month]
      apply field_same
      have days := number_day year month
      rcases lt_trichotomy i.date.day j.date.day with less | day | more
      · exact field_lt (by omega) less (by omega) _ _
      · rw [day]
        apply field_same
        rcases lt_trichotomy i.hour j.hour with less | hour | more
        · exact field_lt houredI.1 less (by omega) _ _
        · rw [hour]
          apply field_same
          rcases lt_trichotomy i.minute j.minute with less | minute | more
          · exact field_lt minutedI.1 less (by omega) _ _
          · rw [minute]
            apply field_same
            exact field_lt secondedI.1 (by omega) (by omega) _ _
          · omega
        · omega
      · omega
    · have later := number_month year.symm more
      omega
  · have later := number_year more
    omega

end Texts

-- Every number of seconds is one instant; within four digits of years its text is
-- that of the calendar, reads back, and keeps the order.
theorem civil_times :
    (∀ t, ∃! i : Instant, i.seconds = t) ∧
    (∀ t i, i.seconds = t → FourDigits i → rfc3339 t = utcText i ∧ parseUtc (rfc3339 t) = some t) ∧
    (∀ t u i j, i.seconds = t → j.seconds = u → FourDigits i → FourDigits j → t < u → rfc3339 t < rfc3339 u) ∧
    ∀ i, FourDigits i → ∃ t, parseUtc (utcText i) = some t ∧ rfc3339 t = utcText i := by
  refine ⟨?_,?_,?_,?_⟩
  · intro t
    obtain ⟨i,same⟩ := instant_exists t
    exact ⟨i,same,fun j other => seconds_injective (other.trans same.symm)⟩
  · rintro t i rfl four
    rw [rfc3339_text four]
    exact ⟨rfl,parseUtc_text four⟩
  · rintro t u i j rfl rfl fourI fourJ before
    rw [rfc3339_text fourI,rfc3339_text fourJ]
    exact utcText_lt fourI fourJ before
  · intro i four
    exact ⟨i.seconds,parseUtc_text four,rfc3339_text four⟩

end RemoteFileExplorer.CivilTimes

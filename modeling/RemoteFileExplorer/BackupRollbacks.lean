import RemoteFileExplorer.BackupRestores

namespace RemoteFileExplorer.BackupRollbacks
open JsonTexts AppKeys KeyedEntries AppRows Backups BackupRestores

structure SameOwned (before after : Phone) : Prop where
  rows : ∀ key, isBackedUpPrefKey key = true → after.rows.get key = before.rows.get key
  secure : ∀ key, isBackedUpSecureKey key = true → after.secure.get key = before.secure.get key

structure SameOther (before after : Phone) : Prop where
  rows : ∀ key, isBackedUpPrefKey key = false → after.rows.get key = before.rows.get key
  secure : ∀ key, isBackedUpSecureKey key = false → after.secure.get key = before.secure.get key

def Within (names : List Text) : Call → Prop
  | .replaceOwned rows => ∀ key, isBackedUpPrefKey key = false → rows.get key = none
  | .delete key => key ∈ names
  | .write key _ => key ∈ names

structure Apart (names : List Text) (before after : Phone) : Prop where
  rows : ∀ key, isBackedUpPrefKey key = false → after.rows.get key = before.rows.get key
  secure : ∀ key, key ∉ names → after.secure.get key = before.secure.get key

theorem act_apart (within : Within names call) (phone : Phone) : Apart names phone (call.act phone) := by
  cases call with
  | replaceOwned rows =>
      refine ⟨fun key other => ?_,fun _ _ => rfl⟩
      rw [Call.act,get_setAll,within key other,Option.none_or,get_keep,other]
      rfl
  | delete name =>
      refine ⟨fun _ _ => rfl,fun key outside => ?_⟩
      have different : key ≠ name := fun same => outside (same ▸ within)
      rw [Call.act,get_remove,if_neg different]
  | write name value =>
      refine ⟨fun _ _ => rfl,fun key outside => ?_⟩
      exact get_set_other fun same => outside (same ▸ within)

theorem apart_trans (first : Apart names before middle) (second : Apart names middle after) : Apart names before after :=
  ⟨fun key other => (second.rows key other).trans (first.rows key other),
    fun key outside => (second.secure key outside).trans (first.secure key outside)⟩

theorem perform_apart (fails : Nat → Bool) (n : Nat) (list : List Call) (within : ∀ call ∈ list,Within names call) (phone : Phone) :
    Apart names phone (perform fails n list phone).2.2 := by
  induction list generalizing n phone with
  | nil => exact ⟨fun _ _ => rfl,fun _ _ => rfl⟩
  | cons call rest ih =>
      rw [perform]
      split
      · exact ⟨fun _ _ => rfl,fun _ _ => rfl⟩
      · have first := act_apart (within call List.mem_cons_self) phone
        exact apart_trans first (ih (n + 1) (fun other member => within other (List.mem_cons_of_mem _ member)) (call.act phone))

theorem perform_past (past : ∀ m, n ≤ m → fails m = false) (list : List Call) (phone : Phone) :
    (perform fails n list phone).2.2 = list.foldl Call.act phone := by
  induction list generalizing n phone with
  | nil => rfl
  | cons call rest ih =>
      rw [perform,past n (Nat.le_refl n)]
      exact ih (fun m later => past m (by omega)) (call.act phone)

theorem perform_stopped (stopped : perform fails n list phone = (false,m,after)) : ∃ k, m = k + 1 ∧ fails k = true := by
  induction list generalizing n phone with
  | nil => cases stopped
  | cons call rest ih =>
      rw [perform] at stopped
      split at stopped
      next failed =>
        cases stopped
        exact ⟨n,rfl,failed⟩
      next => exact ih stopped

def names (prev next : Entries Text Text) : List Text := prev.list.map Prod.fst ++ next.list.map Prod.fst

theorem calls_within (owned : ∀ key, isBackedUpPrefKey key = false → rows.get key = none) (inside : ∀ key ∈ names prev next,key ∈ touched) :
    ∀ call ∈ calls rows prev next,Within touched call := by
  intro call member
  rw [calls,List.mem_cons,List.mem_append] at member
  rcases member with rfl | deleted | written
  · exact owned
  · obtain ⟨key,listed,rfl⟩ := List.mem_map.mp deleted
    exact inside key (List.mem_append_left _ (List.mem_of_mem_filter listed))
  · obtain ⟨entry,listed,rfl⟩ := List.mem_map.mp written
    exact inside entry.1 (List.mem_append_right _ (List.mem_map.mpr ⟨entry,listed,rfl⟩))

theorem kept_owned (entries : Rows) (key : Text) (other : isBackedUpPrefKey key = false) : (entries.keep isBackedUpPrefKey).get key = none := by
  rw [get_keep,other]
  rfl

theorem prefs_owned (prefs : Entries Text (PrefEntry N)) (key : Text) (other : isBackedUpPrefKey key = false) :
    (prefsToKv prefs).get key = none := by
  rw [prefsToKv,get_choose]
  cases prefs.get key <;> simp [other]

theorem names_owned (other : isBackedUpSecureKey key = false) (prev next : Entries Text Text) :
    key ∉ names (prev.keep isBackedUpSecureKey) (next.keep isBackedUpSecureKey) := by
  rw [names,List.mem_append,mem_names,mem_names,get_keep,get_keep,other]
  simp

-- Putting back: the rows and entries that were there, whatever was done to
-- those the backup names.
theorem undo_owned (phone after : Phone) (next : Entries Text Text)
    (apart : Apart (names (phone.secure.keep isBackedUpSecureKey) (next.keep isBackedUpSecureKey)) phone after) :
    SameOwned phone ((calls (phone.rows.keep isBackedUpPrefKey) (next.keep isBackedUpSecureKey)
      (phone.secure.keep isBackedUpSecureKey)).foldl Call.act after) := by
  rw [calls_act]
  constructor
  · intro key owned
    rw [rows_replaced _ _ key owned,get_keep,if_pos owned]
  · intro key owned
    rw [get_setAll,get_removeAll,get_keep,if_pos owned]
    cases found : phone.secure.get key with
    | some value => rfl
    | none =>
        split
        · rfl
        next unlisted =>
          have unnamed : key ∉ names (phone.secure.keep isBackedUpSecureKey) (next.keep isBackedUpSecureKey) := by
            rw [names,List.mem_append,mem_names,get_keep,if_pos owned,found]
            rintro (there | named)
            · cases there
            · apply unlisted
              rw [List.mem_filter,get_keep,if_pos owned,found]
              exact ⟨named,rfl⟩
          rw [apart.secure key unnamed,found]
          rfl

theorem import_stages (N : Numerals) (fails : Nat → Bool) (phone : Phone) (text : Text) (payload : BackupPayload N)
    (parsed : parsePayload N text = .ok payload) : ∃ n middle,
    Apart (names (phone.secure.keep isBackedUpSecureKey) (payload.secure.keep isBackedUpSecureKey)) phone middle ∧
      (importEnvelope N fails phone text = .imported middle ∨
        (∃ k, n = k + 1 ∧ fails k = true) ∧ importEnvelope N fails phone text =
          .failed (perform fails n (calls (phone.rows.keep isBackedUpPrefKey) (payload.secure.keep isBackedUpSecureKey)
            (phone.secure.keep isBackedUpSecureKey)) middle).2.2) := by
  have within := calls_within (prefs_owned payload.prefs)
    (fun key (member : key ∈ names (phone.secure.keep isBackedUpSecureKey) (payload.secure.keep isBackedUpSecureKey)) => member)
  have apart := perform_apart fails 0 _ within phone
  simp only [importEnvelope,parsed]
  rcases made : perform fails 0 (calls (prefsToKv payload.prefs) (phone.secure.keep isBackedUpSecureKey)
    (payload.secure.keep isBackedUpSecureKey)) phone with ⟨done,n,middle⟩
  rw [made] at apart
  cases done with
  | true => exact ⟨n,middle,apart,.inl rfl⟩
  | false => exact ⟨n,middle,apart,.inr ⟨perform_stopped made,rfl⟩⟩

theorem apart_other {prev next : Entries Text Text} (apart : Apart (names (prev.keep isBackedUpSecureKey) (next.keep isBackedUpSecureKey)) before after) :
    SameOther before after :=
  ⟨apart.rows,fun key other => apart.secure key (names_owned other prev next)⟩

theorem names_swap (member : key ∈ names next prev) : key ∈ names prev next := by
  rw [names,List.mem_append] at member ⊢
  exact member.symm

theorem others_kept (imported : importEnvelope N fails phone text = .imported after ∨ importEnvelope N fails phone text = .failed after) :
    SameOther phone after := by
  cases parsed : parsePayload N text with
  | error refusal => simp [importEnvelope,parsed] at imported
  | ok payload =>
      obtain ⟨n,middle,apart,done | ⟨_,failed⟩⟩ := import_stages N fails phone text payload parsed
      · rcases imported with same | same
        · rw [done] at same
          cases same
          exact apart_other apart
        · rw [done] at same
          cases same
      · rcases imported with same | same
        · rw [failed] at same
          cases same
        · rw [failed] at same
          cases same
          apply apart_other
          apply apart_trans apart
          exact perform_apart fails n _ (calls_within (kept_owned phone.rows) fun key => names_swap) middle

theorem single_undone (fails : importEnvelope N (fun n => n == k) phone text = .failed after) : SameOwned phone after := by
  cases parsed : parsePayload N text with
  | error refusal => simp [importEnvelope,parsed] at fails
  | ok payload =>
      obtain ⟨n,middle,apart,done | ⟨⟨place,rfl,stopped⟩,failed⟩⟩ := import_stages N (fun n => n == k) phone text payload parsed
      · rw [done] at fails
        cases fails
      · rw [failed] at fails
        cases fails
        have here : place = k := by simpa using stopped
        rw [perform_past (fun m later => by simp; omega)]
        exact undo_owned phone middle payload.secure apart

theorem restore_all_or_nothing (N : Numerals) (phone : Phone) (text : Text) (after : Phone) :
    (∀ k, importEnvelope N (fun n => n == k) phone text = .failed after → SameOwned phone after) ∧
      ∀ fails, importEnvelope N fails phone text = .imported after ∨ importEnvelope N fails phone text = .failed after →
        SameOther phone after :=
  ⟨fun _ => single_undone,fun _ => others_kept⟩

theorem first_failed (phone : Phone) (parsed : parsePayload N text = .ok payload) :
    ∃ after, importEnvelope N (fun n => n == 0) phone text = .failed after := by
  refine ⟨(perform (fun n => n == 0) 1 (calls (phone.rows.keep isBackedUpPrefKey) (payload.secure.keep isBackedUpSecureKey)
    (phone.secure.keep isBackedUpSecureKey)) phone).2.2,?_⟩
  simp only [importEnvelope,parsed]
  rfl

-- A phone with a host and its token, and the backup of one with neither: the
-- first write of the import fails.
def paired : Phone := ⟨⟨[("rfe_hosts".toList,['[',']'])],by simp⟩,⟨[("rfe_token_h1".toList,['t'])],by simp⟩⟩

theorem restore_all_or_nothing_first : ∃ after,
    importEnvelope literals.toNumerals (fun n => n == 0) paired (exportPayload literals.toNumerals ⟨Entries.empty,Entries.empty⟩ []) = .failed after ∧
      SameOwned paired after := by
  obtain ⟨back,parsed,_⟩ := payload_parsed literals_lawful (buildPayload literals.toNumerals Entries.empty Entries.empty [])
  obtain ⟨after,failed⟩ := first_failed paired parsed
  exact ⟨after,failed,(restore_all_or_nothing _ _ _ after).1 0 failed⟩

end RemoteFileExplorer.BackupRollbacks

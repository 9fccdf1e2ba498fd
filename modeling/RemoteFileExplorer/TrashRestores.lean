import RemoteFileExplorer.TrashRounds

namespace RemoteFileExplorer.TrashRestores
open FileTree Jail TreeEdits SystemCalls PercentCodes TrashInfo Trash TrashNames TrashSteps TrashRounds Runs

def Listed (disk : Files) (host : Host) (item : Item) : Prop :=
  ∃ all e, listAll disk host = some all ∧ e ∈ all ∧ e.own = item.own ∧ e.originalPath = text item.original

-- A caller that may write, is shown the item and has its jail in place asks for
-- an item without a backslash in its name and whose original path is free.
structure Asks (disk : Files) (host : Host) (caller : Caller) (item : Item) : Prop where
  writable : caller.readOnly = false
  shown : ∃ all e, listTrash disk host caller = some all ∧ e ∈ all ∧ e.own = item.own ∧ e.originalPath = text item.original
  jail : ∀ root, allowedRootFor caller item.original = some root → root ≠ item.original ∧ openJailRoot disk host root = true
  plain : '\\' ∉ (baseName item.original).toList
  free : nodeAt disk.root item.original = none

def Moves : Fate → Prop
  | .renamed => True
  | .copied _ => True
  | _ => False

-- The tree is back at its path, the store has lost the item's two entries and
-- nothing else, and every other item is still there and still shown.
def Restores (disk : Files) (host : Host) (caller : Caller) (fate : Fate) (items : List Item) (item : Item) : Prop :=
  ∃ after, restoreFromTrash disk host caller [(item.own,fate)] = (after,[⟨text item.original,none⟩]) ∧
    nodeAt after.root item.original = some item.node ∧
    (∃ left, listAll after host = some left ∧ ∀ e ∈ left, e.own ≠ item.own) ∧
    ∃ files info payloads notes, Reaches disk host files info ∧ Reaches after host files info ∧
      nodeAt disk.root files = some (.dir payloads) ∧ nodeAt after.root files = some (.dir (payloads.filter fun e => e.1 != item.own)) ∧
      nodeAt disk.root info = some (.dir notes) ∧ nodeAt after.root info = some (.dir (notes.filter fun e => e.1 != infoName item.own)) ∧
      ∀ other ∈ items, other.own ≠ item.own → Listed after host other ∧ nodeAt after.root (files ++ [other.own]) = some other.node

section Listing
variable {disk : Files} {host : Host} {files info : Path} {item : Item}

theorem ownOf_infoName (own : Name) : ownOf (infoName own) = some own := by
  have chars : (infoName own).toList = own.toList ++ trashInfoExt.toList := String.toList_append
  unfold ownOf
  rw [if_pos (List.isSuffixOf_iff_suffix.mpr ⟨own.toList,chars.symm⟩),chars,List.length_append,Nat.add_sub_cancel,List.take_left,
    String.ofList_toList]

theorem ownOf_name (named : ownOf file = some own) : file = infoName own := by
  unfold ownOf at named
  split at named
  · rename_i ends
    obtain ⟨front,chars⟩ := List.isSuffixOf_iff_suffix.mp ends
    cases named
    apply String.toList_inj.mp
    unfold infoName
    rw [String.toList_append,String.toList_ofList,← chars,List.length_append,Nat.add_sub_cancel,List.take_left]
  · cases named

section
variable (placed : Placed disk host files info)
include placed

theorem readFile_noted (noted : nodeAt disk.root (info ++ [infoName own]) = some (.file data)) :
    readFile disk host.links (trashInfoDir host ++ [own ++ trashInfoExt]) = some data := by
  obtain ⟨⟨_,walkInfo⟩,_,⟨_,infoStands⟩⟩ := placed
  exact readFile_within walkInfo infoStands (infoName_proper own) noted

theorem listAll_placed (stands : nodeAt disk.root info = some (.dir notes)) :
    listAll disk host = some (notes.filterMap (Trash.listed disk host)) := by
  unfold listAll
  rw [placed.reaches.2]
  dsimp only
  rw [stands]

theorem noted_listed (noted : nodeAt disk.root (info ++ [infoName item.own]) = some (.file (content (text item.original) now))) : Listed disk host item := by
  obtain ⟨notes,stands⟩ := placed.infoStands
  have read := readFile_noted placed noted
  rw [nodeAt_snoc,stands,Option.bind_some] at noted
  obtain ⟨entry,found,same⟩ := Option.map_eq_some_iff.mp noted
  have member := List.mem_of_find?_eq_some found
  have name : entry.1 = infoName item.own := by simpa using List.find?_some found
  have shown : Trash.listed disk host entry =
      some ⟨item.own,text item.original,now.format,payloadIsDir disk host item.own⟩ := by
    unfold Trash.listed
    rw [same,if_neg (by simp [Node.isDir]),name,ownOf_infoName,Option.bind_some]
    unfold infoName
    rw [read,Option.bind_some,readTrashInfo_content _ (text_absolute item.original)]
    rfl
  exact ⟨_,_,listAll_placed placed stands,List.mem_filterMap.mpr ⟨entry,member,shown⟩,rfl,rfl⟩

theorem unnoted_unlisted (stands : nodeAt disk.root info = some (.dir notes))
    (absent : ∀ e ∈ notes, e.1 ≠ infoName own) : ∃ left, listAll disk host = some left ∧ ∀ e ∈ left, e.own ≠ own := by
  refine ⟨_,listAll_placed placed stands,?_⟩
  intro e member same
  obtain ⟨file,inside,shown⟩ := List.mem_filterMap.mp member
  unfold Trash.listed at shown
  split at shown
  · cases shown
  · obtain ⟨name,named,rest⟩ := Option.bind_eq_some_iff.mp shown
    obtain ⟨read,_,entry⟩ := Option.map_eq_some_iff.mp rest
    rw [← entry] at same
    dsimp only at same
    rw [same] at named
    exact absent file inside (ownOf_name named)

end

end Listing

section Restore
variable {disk : Files} {host : Host} {caller : Caller} {files info : Path} {item : Item} {items : List Item}

theorem access_item (held : Held disk host files info item) (asks : Asks disk host caller item) :
    ∃ root, access disk host caller (text item.original) = .ok ⟨item.original,root⟩ ∧ root ≠ some item.original := by
  obtain ⟨absolute,parts⟩ := request_text held.ordinary held.named
  have free := resolveReal_free host.links held.ordinary held.roomy asks.free
  have resolved : resolve disk (caller.ops host) (request (text item.original)) = .ok item.original := by
    obtain ⟨all,e,shown,member,_,path⟩ := asks.shown
    unfold listTrash at shown
    cases denied : caller.denyAll with
    | true =>
      rw [denied,if_pos rfl] at shown
      cases shown
      cases member
    | false =>
      rw [denied,if_neg Bool.false_ne_true] at shown
      obtain ⟨whole,_,same⟩ := Option.map_eq_some_iff.mp shown
      cases roots : caller.roots.isEmpty with
      | true =>
        have emptyRoots : (caller.ops host).roots.isEmpty = true := roots
        refine resolve_parts.mpr ⟨denied,absolute,?_,by rw [parts]; exact free,?_⟩
        · unfold lexicallyAllowed
          rw [emptyRoots]
          rfl
        · have unprotected : isProtected (caller.ops host) item.original = false := held.unprotected
          unfold admits
          rw [unprotected,emptyRoots]
          rfl
      | false =>
        rw [roots,if_neg Bool.false_ne_true] at same
        rw [← same] at member
        have passes := (List.mem_filter.mp member).2
        rw [path] at passes
        cases outcome : resolve disk (caller.ops host) (request (text item.original)) with
        | error e =>
          rw [outcome] at passes
          cases passes
        | ok place =>
          obtain ⟨_,_,_,found,_⟩ := resolve_parts.mp outcome
          rw [parts] at found
          have same : place = item.original := by
            have both := found.symm.trans free
            exact Except.ok.inj both
          rw [same]
  unfold access
  rw [resolved]
  dsimp only
  cases allowed : allowedRootFor caller item.original with
  | none => exact ⟨none,rfl,by simp⟩
  | some root =>
    obtain ⟨differs,opens⟩ := asks.jail root allowed
    dsimp only
    rw [if_pos opens]
    exact ⟨some root,rfl,by simpa using differs⟩

theorem parent_made (held : Held disk host files info item) :
    ∃ made, mkdirAll disk host.links item.original.dropLast = some made ∧ Opened disk made item.original.dropLast := by
  obtain ⟨dir,name,split⟩ := (List.eq_nil_or_concat' item.original).resolve_left held.proper
  have shorter : dir <+: item.original := ⟨[name],split.symm⟩
  have strict : dir ≠ item.original := by
    rw [split]
    simp
  have ordinary : Ordinary dir := fun part member => held.ordinary part (shorter.subset member)
  rw [split,List.dropLast_concat]
  exact mkdirAll_roomy host.links ordinary (roomy_front held.roomy shorter) (held.roomy dir shorter strict)

def putBack (made : Files) (files : Path) (item : Item) : Files := edit (some item.node) item.original (edit none (files ++ [item.own]) made)

structure Prepared (disk made : Files) (host : Host) (files info : Path) (item : Item) : Prop where
  placed : Placed disk host files info
  held : Held disk host files info item
  free : nodeAt disk.root item.original = none
  opened : Opened disk made item.original.dropLast

variable {made : Files}

section
variable (ready : Prepared disk made host files info item)
include ready

theorem Prepared.elsewhere (outside : ¬ path <+: item.original) :
    nodeAt made.root path = nodeAt disk.root path :=
  ready.opened.elsewhere path fun inner => outside (inner.trans (List.dropLast_prefix _))

theorem Prepared.free_made : nodeAt made.root item.original = none := by
  have proper := ready.held.proper
  rw [ready.opened.elsewhere _ ?_,ready.free]
  intro inner
  have lengths := inner.length_le
  rw [List.length_dropLast] at lengths
  have positive := List.length_pos_iff.mpr proper
  omega

theorem Prepared.away (stands : nodeAt disk.root place = some node)
    (outside : ¬ place <+: item.original) : Apart item.original place := by
  refine ⟨?_,outside⟩
  rintro ⟨more,rfl⟩
  rw [nodeAt_below disk.root ready.free] at stands
  cases stands

theorem Prepared.outside_files (name : Name) : ¬ files ++ [name] <+: item.original :=
  fun inner => ready.held.outside.1 ((List.prefix_append files [name]).trans inner)

theorem Prepared.outside_info (name : Name) : ¬ info ++ [name] <+: item.original :=
  fun inner => ready.held.outside.2 ((List.prefix_append info [name]).trans inner)

theorem Prepared.parent :
    ∃ dir name, item.original = dir ++ [name] ∧ (∃ entries, nodeAt made.root dir = some (.dir entries)) ∧
      walk made.root host.links [] dir = .found dir := by
  obtain ⟨dir,name,split⟩ := (List.eq_nil_or_concat' item.original).resolve_left ready.held.proper
  obtain ⟨entries,stands⟩ := ready.opened.stands
  rw [split,List.dropLast_concat] at stands
  have ordinary : Ordinary dir := fun part member => ready.held.ordinary part (by rw [split]; exact List.mem_append_left _ member)
  exact ⟨dir,name,split,⟨entries,stands⟩,(walk_roomy host.links ordinary (stored_roomy stands)).1 _ stands rfl⟩

theorem Prepared.moves (differs : root ≠ some item.original) (moving : Moves fate) :
    moveAcrossRootsSecure made host.links ⟨trashFilesDir host ++ [item.own],none⟩ ⟨item.original,root⟩ fate =
      (putBack made files item,true) := by
  obtain ⟨entries,filesStand⟩ := ready.placed.filesStand
  have walkFiles := walk_grows ready.opened.grows ready.placed.reaches.1
  have standing : nodeAt made.root files = some (.dir entries) := (ready.elsewhere ready.held.outside.1).trans filesStand
  have payload : nodeAt made.root (files ++ [item.own]) = some item.node := (ready.elsewhere (ready.outside_files _)).trans ready.held.payload
  obtain ⟨dir,name,split,⟨above,parentStands⟩,walkParent⟩ := ready.parent
  have entered : entryOf made host.links item.original = some item.original := by
    rw [split]
    exact entryOf_within walkParent parentStands name
  have outside := ready.outside_files item.own
  have other : files ++ [item.own] ≠ item.original := fun same => outside (by rw [same])
  have unprefixed : ¬ (files ++ [item.own]).isPrefixOf item.original = true := fun inner => outside (List.isPrefixOf_iff_prefix.mp inner)
  unfold moveAcrossRootsSecure
  rw [if_neg (by simp [differs])]
  unfold carry
  rw [entryOf_within walkFiles standing,entered]
  dsimp only
  rw [payload,ready.free_made]
  dsimp only
  rw [if_neg (blocked_free _ _ _ item.node),if_neg other,if_neg unprefixed]
  cases fate with
  | renamed => rfl
  | copied merged =>
    unfold settle
    rw [ready.free_made]
    rfl
  | refused | copyFailed | copyKept gone merged => cases moving

theorem Prepared.grows : Grows (edit none (files ++ [item.own]) disk) (putBack made files item) := by
  refine grows_trans (grows_cut (by simp) ready.opened.grows) (grows_edit ?_ _)
  have kept : (nodeAt (edit none (files ++ [item.own]) made).root item.original).map kind = (nodeAt made.root item.original).map kind :=
    cut_kept (ready.outside_files _) none
  rw [ready.free_made] at kept
  exact Option.map_eq_none_iff.mp kept

theorem Prepared.putBack_same (stands : nodeAt disk.root place = some node)
    (outside : ¬ place <+: item.original) (apart : Apart (files ++ [item.own]) place) :
    nodeAt (putBack made files item).root place = some node := by
  have away := ready.away stands outside
  unfold putBack
  rw [nodeAt_edit_apart _ away.1 away.2,nodeAt_edit_apart _ apart.1 apart.2,ready.elsewhere outside,stands]

theorem Prepared.removes :
    remove (putBack made files item) host.links (trashInfoDir host ++ [item.own ++ trashInfoExt]) =
      edit none (info ++ [infoName item.own]) (putBack made files item) := by
  obtain ⟨entries,infoStands⟩ := ready.placed.infoStands
  obtain ⟨time,noted⟩ := ready.held.noted
  have separate := ready.held.separate
  have walked : walk (putBack made files item).root host.links [] (trashInfoDir host) = .found info :=
    walk_grows (grows_trans (grows_back _ (by simp)) ready.grows) ready.held.aside.2
  have stands : nodeAt (putBack made files item).root info = some (.dir entries) :=
    ready.putBack_same infoStands ready.held.outside.2 (apart_symm (apart_child separate.1 separate.2 item.own))
  exact remove_file walked stands _ (ready.putBack_same noted (ready.outside_info _) (apart_children separate _ _))

end

theorem restoreOne_runs (placed : Placed disk host files info) (held : Held disk host files info item) (asks : Asks disk host caller item)
    (moving : Moves fate) : ∃ made, Prepared disk made host files info item ∧
      restoreOne disk host caller item.own fate =
        (edit none (info ++ [infoName item.own]) (putBack made files item),⟨text item.original,none⟩) := by
  obtain ⟨made,ran,opened⟩ := parent_made held
  have ready : Prepared disk made host files info item := ⟨placed,held,asks.free,opened⟩
  obtain ⟨root,accessed,differs⟩ := access_item held asks
  obtain ⟨time,noted⟩ := held.noted
  obtain ⟨k,candidate⟩ := held.candidate
  obtain ⟨dir,base,split⟩ := (List.eq_nil_or_concat' item.original).resolve_left held.proper
  have last : baseName item.original = base := by
    unfold baseName
    rw [split]
    simp
  have inside : base ∈ item.original := by
    rw [split]
    simp
  have valid : validTrashID item.own = true := by
    rw [candidate,last]
    have plain := asks.plain
    rw [last] at plain
    exact candidateAt_valid (held.ordinary base inside) (held.named base inside) plain k
  have read := readFile_noted placed noted
  obtain ⟨entries,filesStand⟩ := placed.filesStand
  have present : lstat disk host.links (trashFilesDir host ++ [item.own]) = .ok item.node := by
    rw [lstat_within placed.reaches.1 filesStand,held.payload]
    rfl
  have free : lstat disk host.links item.original = .error .notExist := by
    rw [lstat_roomy host.links held.ordinary held.roomy,asks.free]
    rfl
  refine ⟨made,ready,?_⟩
  unfold restoreOne
  rw [if_neg (by simp [valid]),read,Option.bind_some,readTrashInfo_content _ (text_absolute item.original)]
  dsimp only
  rw [accessed]
  dsimp only
  rw [present,if_neg (by simp [Except.isOk,Except.toBool]),if_neg differs]
  unfold destination
  rw [free]
  dsimp only
  rw [ran]
  dsimp only
  rw [ready.moves differs moving]
  dsimp only
  rw [ready.removes]

section
variable (ready : Prepared disk made host files info item)
include ready

theorem restored_placed :
    Reaches (edit none (info ++ [infoName item.own]) (putBack made files item)) host files info := by
  have grows : Grows (edit none (info ++ [infoName item.own]) (edit none (files ++ [item.own]) disk))
      (edit none (info ++ [infoName item.own]) (putBack made files item)) := grows_cut (by simp) ready.grows
  exact reaches_meets (grows_meets grows) ready.held.aside ready.held.aside

theorem restored_back :
    nodeAt (edit none (info ++ [infoName item.own]) (putBack made files item)).root item.original = some item.node := by
  obtain ⟨time,noted⟩ := ready.held.noted
  have away := ready.away noted (ready.outside_info _)
  obtain ⟨dir,name,split,⟨above,stands⟩,_⟩ := ready.parent
  have outside : ¬ files ++ [item.own] <+: dir := by
    intro inner
    apply ready.outside_files item.own
    rw [split]
    exact inner.trans (List.prefix_append dir [name])
  obtain ⟨later,parent⟩ := dir_kept outside none stands
  rw [nodeAt_edit_apart none away.2 away.1]
  unfold putBack
  rw [split]
  have placed := nodeAt_edit_at (some item.node) parent name []
  rwa [List.append_nil] at placed

theorem restored_files (stands : nodeAt disk.root files = some (.dir payloads)) :
    nodeAt (edit none (info ++ [infoName item.own]) (putBack made files item)).root files =
      some (.dir (payloads.filter fun e => e.1 != item.own)) := by
  have separate := ready.held.separate
  have apart := apart_child separate.2 separate.1 (infoName item.own)
  have away := ready.away stands ready.held.outside.1
  unfold putBack
  rw [nodeAt_edit_apart none apart.2 apart.1,nodeAt_edit_apart _ away.1 away.2,
    nodeAt_edit_above none made files (List.cons_ne_nil item.own []),ready.elsewhere ready.held.outside.1,stands]
  rfl

theorem restored_info (stands : nodeAt disk.root info = some (.dir notes)) :
    nodeAt (edit none (info ++ [infoName item.own]) (putBack made files item)).root info =
      some (.dir (notes.filter fun e => e.1 != infoName item.own)) := by
  have separate := ready.held.separate
  have apart := apart_child separate.1 separate.2 item.own
  rw [nodeAt_edit_above none _ info (List.cons_ne_nil (infoName item.own) []),
    ready.putBack_same stands ready.held.outside.2 (apart_symm apart)]
  rfl

theorem restored_other (held : Held disk host files info other)
    (differs : other.own ≠ item.own) :
    nodeAt (edit none (info ++ [infoName item.own]) (putBack made files item)).root (files ++ [other.own]) = some other.node ∧
    ∃ now, nodeAt (edit none (info ++ [infoName item.own]) (putBack made files item)).root (info ++ [infoName other.own]) =
      some (.file (content (text other.original) now)) := by
  have separate := ready.held.separate
  obtain ⟨time,noted⟩ := held.noted
  constructor
  · have apart := apart_children separate other.own (infoName item.own)
    rw [nodeAt_edit_apart none apart.2 apart.1]
    exact ready.putBack_same held.payload (ready.outside_files _) (apart_names differs.symm files)
  · have apart := apart_names (fun same => differs (infoName_inj same)) info
    refine ⟨time,?_⟩
    rw [nodeAt_edit_apart none apart.2 apart.1]
    exact ready.putBack_same noted (ready.outside_info _) (apart_children separate _ _)

end

theorem item_restored (placed : Placed disk host files info) (held : ∀ other ∈ items, Held disk host files info other)
    (member : item ∈ items) (asks : Asks disk host caller item) (moving : Moves fate) : Restores disk host caller fate items item := by
  obtain ⟨made,ready,ran⟩ := restoreOne_runs placed (held item member) asks moving
  obtain ⟨payloads,filesStand⟩ := placed.filesStand
  obtain ⟨notes,infoStands⟩ := placed.infoStands
  have filesLeft := restored_files ready filesStand
  have infoLeft := restored_info ready infoStands
  have reaches := restored_placed ready
  have after : Placed (edit none (info ++ [infoName item.own]) (putBack made files item)) host files info :=
    ⟨reaches,⟨_,filesLeft⟩,⟨_,infoLeft⟩⟩
  refine ⟨_,?_,restored_back ready,unnoted_unlisted after infoLeft ?_,files,info,payloads,notes,placed.reaches,reaches,filesStand,
    filesLeft,infoStands,infoLeft,?_⟩
  · unfold restoreFromTrash
    rw [asks.writable,if_neg Bool.false_ne_true]
    unfold restoreEach
    rw [ran]
    rfl
  · intro e inside
    simpa using (List.mem_filter.mp inside).2
  · intro other known differs
    obtain ⟨payload,time,noted⟩ := restored_other ready (held other known) differs
    exact ⟨noted_listed after noted,payload⟩

end Restore

-- Every absolute path survives its information file. In every run of calls that
-- leave the store alone, each trashed item is shown, and restoring it to its
-- free path brings back that tree at that path and takes that item alone away.
theorem trash_round_trip {host : Host} {disk last : Files} {calls : List Call} {items : List Item} (clear : Every (step host) (ClearCall host) (disk,[]) calls)
    (ran : run (step host) (disk,[]) calls = some (last,items)) :
    (∀ path now, isAbs path = true → readTrashInfo (content path now) = some ⟨path,now.format⟩) ∧
    ∀ item ∈ items, Listed last host item ∧ ∀ caller fate, Asks last host caller item → Moves fate →
      Restores last host caller fate items item := by
  refine ⟨fun path now absolute => readTrashInfo_content path absolute now,?_⟩
  intro item member
  rcases run_keeps clear ran with empty | ⟨files,info,placed,held⟩
  · dsimp only at empty
    rw [empty] at member
    cases member
  · obtain ⟨time,noted⟩ := (held item member).noted
    exact ⟨noted_listed placed noted,fun caller fate asks moving => item_restored placed held member asks moving⟩

def desktop : Host := ⟨[],40,⟨["Trash"],by simp [Ordinary,Proper]⟩⟩
def owner : Caller := ⟨[],false,false⟩
def emptyTrash : Name × Node Bytes := ("Trash",.dir [("files",.dir []),("info",.dir [])])
def midnight : Stamp := ⟨2026,1,1,0,0,0⟩
def asked (path : String) : TrashRequest := ⟨ascii path,midnight,.renamed,.done,.refused⟩

theorem owner_shown (shown : Listed disk desktop item) :
    ∃ all e, listTrash disk desktop owner = some all ∧ e ∈ all ∧ e.own = item.own ∧ e.originalPath = text item.original := by
  obtain ⟨all,e,whole,member,same,path⟩ := shown
  refine ⟨all,e,?_,member,same,path⟩
  unfold listTrash
  rw [whole]
  rfl

-- A percent sign in the name, and the disk with it in the trash.
def percentFile : Files := [emptyTrash,("100%",.file [7])]

def percentTrashed : Files :=
  [("Trash",.dir [("info",.dir [("100%.trashinfo",.file (content (text ["100%"]) midnight))]),("files",.dir [("100%",.file [7])])])]

def percentItem : Item := ⟨"100%",["100%"],.file [7]⟩

def percentCall : Call := ⟨owner,[asked "/100%"]⟩

theorem percent_trashed : trashPath percentFile desktop owner (asked "/100%") = (percentTrashed,none) := rfl

theorem percent_item : itemOf percentFile desktop owner (asked "/100%") = some percentItem := by
  rfl

theorem percent_clear : ClearCall desktop (percentFile,[]) percentCall := by
  have named : Named ["100%"] := by
    intro name inside c part
    have plain : "100%".toList.all (fun c => decide (c.toNat < 256 ∧ c ≠ '/')) = true := by decide
    rw [List.mem_singleton.mp inside] at part
    simpa using List.all_eq_true.mp plain c part
  have separate : Apart ["Trash","files"] ["Trash","info"] := ⟨by decide,by decide⟩
  have opened : access percentFile desktop owner (ascii "/100%") = .ok ⟨["100%"],none⟩ := rfl
  have there : Reaches percentFile desktop ["Trash","files"] ["Trash","info"] := ⟨rfl,rfl⟩
  intro ready made
  have same : percentFile = ready := Option.some.inj made
  rw [← same]
  refine ⟨?_,trivial⟩
  intro resolved node files info accessed stored reaches
  have place : (⟨["100%"],none⟩ : SecurePath) = resolved := Except.ok.inj (opened.symm.trans accessed)
  rw [← place]
  cases there.1.symm.trans reaches.1
  cases there.2.symm.trans reaches.2
  exact ⟨named,separate,⟨by decide,by decide⟩,.inr ⟨by decide,rfl,rfl⟩,0,by decide,rfl⟩

theorem percent_name_restored : run (step desktop) (percentFile,[]) [percentCall] = some (percentTrashed,[percentItem]) ∧
    Restores percentTrashed desktop owner .renamed [percentItem] percentItem := by
  have ready : readied percentFile desktop = some percentFile := rfl
  have ran : run (step desktop) (percentFile,[]) [percentCall] = some (percentTrashed,[percentItem]) := by
    refine run_cons.mpr ⟨_,rfl,?_⟩
    have disk : (moveToTrash percentFile desktop owner [asked "/100%"]).1 = percentTrashed := by
      rw [moveToTrash_readied rfl ready]
      unfold trashEach
      rw [percent_trashed]
      rfl
    have items : itemsOf percentFile desktop percentCall = [percentItem] := by
      unfold itemsOf
      rw [ready]
      exact congrArg (fun item => item.toList ++ []) percent_item
    exact congrArg some (Prod.ext disk items)
  have clear : Every (step desktop) (ClearCall desktop) (percentFile,[]) [percentCall] := ⟨percent_clear,fun _ _ => trivial⟩
  obtain ⟨shown,restores⟩ := (trash_round_trip clear ran).2 percentItem (by simp)
  refine ⟨ran,restores owner .renamed ⟨rfl,owner_shown shown,?_,by decide,rfl⟩ trivial⟩
  intro root allowed
  cases allowed

-- A backslash is an ordinary byte of a file name here.
def backslashFile : Files := [emptyTrash,("a\\b",.file [7])]

def backslashTrashed : Files :=
  [("Trash",.dir [("info",.dir [("a\\b.trashinfo",.file (content (text ["a\\b"]) midnight))]),("files",.dir [("a\\b",.file [7])])])]

def backslashItem : Item := ⟨"a\\b",["a\\b"],.file [7]⟩

theorem backslash_name_refused :
    run (step desktop) (backslashFile,[]) [⟨owner,[asked "/a\\b"]⟩] = some (backslashTrashed,[backslashItem]) ∧
    Listed backslashTrashed desktop backslashItem ∧ nodeAt backslashTrashed.root backslashItem.original = none ∧
    (∀ fate, restoreFromTrash backslashTrashed desktop owner [(backslashItem.own,fate)] =
      (backslashTrashed,[⟨nameBytes backslashItem.own,some .BAD_REQUEST⟩])) ∧
    ∀ fate, ¬ Restores backslashTrashed desktop owner fate [backslashItem] backslashItem := by
  have refused : ∀ fate, restoreFromTrash backslashTrashed desktop owner [(backslashItem.own,fate)] =
      (backslashTrashed,[⟨nameBytes backslashItem.own,some .BAD_REQUEST⟩]) := fun fate => rfl
  have placed : Placed backslashTrashed desktop ["Trash","files"] ["Trash","info"] := ⟨⟨rfl,rfl⟩,⟨_,rfl⟩,⟨_,rfl⟩⟩
  have noted : nodeAt backslashTrashed.root (["Trash","info"] ++ [infoName backslashItem.own]) =
      some (.file (content (text backslashItem.original) midnight)) := rfl
  refine ⟨rfl,noted_listed placed noted,rfl,refused,?_⟩
  rintro fate ⟨after,ran,_⟩
  have both := congrArg (fun outcome => outcome.2.map (·.error)) ((refused fate).symm.trans ran)
  cases both

end RemoteFileExplorer.TrashRestores

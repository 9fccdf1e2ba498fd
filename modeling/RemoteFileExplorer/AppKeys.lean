import Mathlib.Data.List.Nodup
import RemoteFileExplorer.JsonTexts

namespace RemoteFileExplorer.AppKeys
open JsonTexts

-- The rows with a fixed name: the settings, the host list and the last opened
-- host, the collections, the sync rules and the photo backup.
inductive Name where
  | gridView
  | density
  | sortField
  | sortAscending
  | visHideDotfiles
  | visHiddenExtensions
  | visHiddenNames
  | themeMode
  | dynamicColor
  | notifications
  | lowDiskThreshold
  | appLock
  | amoled
  | seedColor
  | watchedFolders
  | compressCellular
  | preloadCellular
  | weeklyDigest
  | overrides
  | hosts
  | lastHost
  | favorites
  | bookmarks
  | pins
  | recentSearches
  | savedSearches
  | syncRules
  | photoEnabled
  | photoHost
  | photoDeviceName
  | photoWifiOnly
  | photoChargingOnly
  | photoAlbums
  | photoScheduled
  | photoDone
  deriving DecidableEq, Repr

def Name.text : Name → String
  | .gridView => "app.gridView"
  | .density => "app.density"
  | .sortField => "app.sortField"
  | .sortAscending => "app.sortAscending"
  | .visHideDotfiles => "app.visibility.hideDotfiles"
  | .visHiddenExtensions => "app.visibility.hiddenExtensions"
  | .visHiddenNames => "app.visibility.hiddenNames"
  | .themeMode => "app.themeMode"
  | .dynamicColor => "app.dynamicColor"
  | .notifications => "app.notificationsEnabled"
  | .lowDiskThreshold => "app.lowDiskThresholdBytes"
  | .appLock => "app.appLockEnabled"
  | .amoled => "app.amoledDark"
  | .seedColor => "app.seedColor"
  | .watchedFolders => "app.watchedFolders.v1"
  | .compressCellular => "app.compressDownloadsOnCellular"
  | .preloadCellular => "app.preloadPreviewOnCellular"
  | .weeklyDigest => "app.weeklyDigestEnabled"
  | .overrides => "settings.deviceOverrides.v1"
  | .hosts => "rfe_hosts_v1"
  | .lastHost => "rfe_last_host_v1"
  | .favorites => "rfe_favorites_v1"
  | .bookmarks => "bookmarks_v1"
  | .pins => "offline_pins_v1"
  | .recentSearches => "rfe_recent_searches_v1"
  | .savedSearches => "rfe_saved_searches_v1"
  | .syncRules => "rfe_sync_rules_v1"
  | .photoEnabled => "rfe_photo_backup_enabled"
  | .photoHost => "rfe_photo_backup_host"
  | .photoDeviceName => "rfe_photo_backup_device_name"
  | .photoWifiOnly => "rfe_photo_backup_wifi_only"
  | .photoChargingOnly => "rfe_photo_backup_charging_only"
  | .photoAlbums => "rfe_photo_backup_albums"
  | .photoScheduled => "rfe_photo_backup_scheduled"
  | .photoDone => "rfe_photo_backup_done"

inductive Key where
  | named (name : Name)
  | roots (hostId : Text)
  | lastSeen (hostId : Text)
  deriving DecidableEq, Repr

def rootsKey (hostId : Text) : Text := "rfe_roots_v1_".toList ++ hostId
def lastSeenKey (hostId : Text) : Text := "rfe_last_seen_".toList ++ hostId

def Key.text : Key → Text
  | .named name => name.text.toList
  | .roots hostId => rootsKey hostId
  | .lastSeen hostId => lastSeenKey hostId

def OWNED_PREFIXES : List Text :=
  ["rfe_".toList,"app.".toList,"host.".toList,"settings.".toList,"bookmarks_v1".toList,"offline_pins_v1".toList,"digest.".toList]

def isBackedUpPrefKey (key : Text) : Bool := OWNED_PREFIXES.any (·.isPrefixOf key)

def isBackedUpSecureKey (key : Text) : Bool := "rfe_token_".toList.isPrefixOf key || "rfe_fp_".toList.isPrefixOf key

def Name.all : List Name :=
  [.gridView,.density,.sortField,.sortAscending,.visHideDotfiles,.visHiddenExtensions,.visHiddenNames,.themeMode,.dynamicColor,.notifications,
    .lowDiskThreshold,.appLock,.amoled,.seedColor,.watchedFolders,.compressCellular,.preloadCellular,.weeklyDigest,.overrides,.hosts,.lastHost,.favorites,
    .bookmarks,.pins,.recentSearches,.savedSearches,.syncRules,.photoEnabled,.photoHost,.photoDeviceName,.photoWifiOnly,.photoChargingOnly,.photoAlbums,
    .photoScheduled,.photoDone]

theorem all_names (name : Name) : name ∈ Name.all := by cases name <;> decide

theorem texts_distinct : (Name.all.map Name.text).Nodup := by
  delta Name.all Name.text
  simp

theorem owned_named (name : Name) : ∃ owner ∈ OWNED_PREFIXES, owner <+: name.text.toList := by
  delta OWNED_PREFIXES Name.text
  cases name <;> simp

theorem named_apart (name : Name) (hostId : Text) : name.text.toList ≠ rootsKey hostId ∧ name.text.toList ≠ lastSeenKey hostId := by
  unfold rootsKey lastSeenKey
  delta Name.text
  cases name <;> simp

theorem roots_lastSeen (first second : Text) : rootsKey first ≠ lastSeenKey second := by
  unfold rootsKey lastSeenKey
  simp

theorem owned_rfe (text : Text) (rest : String) (starts : "rfe_".toList <+: rest.toList) : isBackedUpPrefKey (rest.toList ++ text) = true := by
  rw [isBackedUpPrefKey,List.any_eq_true]
  exact ⟨_,List.mem_cons_self ..,List.isPrefixOf_iff_prefix.mpr (starts.trans (List.prefix_append _ _))⟩

theorem key_owned (key : Key) : isBackedUpPrefKey key.text = true := by
  cases key with
  | named name =>
    obtain ⟨owner,member,starts⟩ := owned_named name
    exact List.any_eq_true.mpr ⟨owner,member,List.isPrefixOf_iff_prefix.mpr starts⟩
  | roots hostId | lastSeen hostId => exact owned_rfe hostId _ (by simp)

theorem key_inj {first second : Key} (same : first.text = second.text) : first = second := by
  cases first with
  | named name =>
    cases second with
    | named other =>
      have texts : name.text = other.text := String.toList_inj.mp same
      rw [List.inj_on_of_nodup_map texts_distinct (all_names name) (all_names other) texts]
    | roots hostId => exact absurd same (named_apart name hostId).1
    | lastSeen hostId => exact absurd same (named_apart name hostId).2
  | roots hostId =>
    cases second with
    | named name => exact absurd same.symm (named_apart name hostId).1
    | roots other => rw [List.append_cancel_left same]
    | lastSeen other => exact absurd same (roots_lastSeen hostId other)
  | lastSeen hostId =>
    cases second with
    | named name => exact absurd same.symm (named_apart name hostId).2
    | roots other => exact absurd same.symm (roots_lastSeen other hostId)
    | lastSeen other => rw [List.append_cancel_left same]

end RemoteFileExplorer.AppKeys

import Vibrato.Hashline.Execute

namespace Vibrato.Hashline

variable (session : Session)

def sectionFile (sec : HashlineInputSection) : Option Text :=
  (resolvePlanPath session sec.path).toOption.map session.fileOf

def DistinctFiles (sections : List HashlineInputSection) : Prop :=
  sections.Pairwise fun a b => ∀ file, sectionFile session a = some file →
    sectionFile session b ≠ some file

/-- If all sections pass preflight, all of them are applied; if the input fails, no file
is written; and the sections of one file are one batch. -/
structure AllOrNothing (s : ExecState) (input : Text) (path : Option Text) : Prop where
  executes : ∀ sections, hashlineSections session input path = .ok sections →
    (preflightSections session s sections).1 = .ok () →
    (executeHashlineSingle session s input path).1.isOk = true
  unchanged : (executeHashlineSingle session s input path).1.isOk = false →
    (executeHashlineSingle session s input path).2.files = s.files
  batched : ∀ sections, hashlineSections session input path = .ok sections →
    DistinctFiles session sections

/-- Whether the anchors of a section do not match its file, so that a snapshot is needed. -/
def isStaleSection (files : Text → Option Text) (sec : HashlineInputSection) : Bool :=
  match loadSection session files sec with
  | .ok loaded => isStale session loaded.normalized loaded.edits
  | .error _ => false

/-- The cache has room for each stale section's snapshot beside the snapshots of the sections before
it, of which there are `count` before the list, and of the stale sections after it. -/
def SnapshotsKept (files : Text → Option Text) : Nat → List HashlineInputSection → Prop
  | _, [] => True
  | count, sec :: after =>
    (isStaleSection session files sec = true →
      count + (after.filter (isStaleSection session files)).length < MAX_PATHS_PER_SESSION) ∧
    SnapshotsKept files (count + 1) after

def EditsSerialize (s : ExecState) (sec : HashlineInputSection) : Prop :=
  ∀ loaded lines, loadSection session s.files sec = .ok loaded →
    applyOrRecover session (s.cache.get loaded.absolutePath).1 loaded.normalized loaded.edits
      = .ok lines →
    (serializeSection session s.files sec loaded lines).isOk = true

variable {session}

variable {files others : Text → Option Text} {q text : Text} {edits : List Edit}
  {sections : List HashlineInputSection} {cache : FileReadCache} {sec : HashlineInputSection}
    {loaded : LoadedSection}
  {s t : ExecState} {lines : Text}

theorem loadSection_absolutePath (h : loadSection session files sec = .ok loaded) :
    resolvePlanPath session sec.path = .ok loaded.absolutePath := by
  rw [loadSection] at h
  cases hresolve : resolvePlanPath session sec.path with
  | error e => rw [hresolve] at h; cases h
  | ok absolutePath =>
    rw [hresolve] at h
    simp only [bind, Except.bind] at h
    split at h
    · cases h
    · cases h
      rfl

theorem loadSection_congr (h : ∀ file, sectionFile session sec = some file →
    files file = others file) :
    loadSection session files sec = loadSection session others sec := by
  rw [loadSection, loadSection]
  cases hresolve : resolvePlanPath session sec.path with
  | error e => rfl
  | ok absolutePath =>
    have hfile := h (session.fileOf absolutePath) (by rw [sectionFile, hresolve]; rfl)
    simp only [bind, Except.bind, hfile]

theorem applyOrRecover_congr (h : isStale session text edits = false)
    (a b : Option FileReadSnapshot) :
    applyOrRecover session a text edits = applyOrRecover session b text edits := by
  rw [isStale] at h
  rw [applyOrRecover, applyOrRecover]
  cases happly : applyHashlineEdits text edits session.autoDropPureInsertDuplicates with
  | ok result => rfl
  | error error =>
    cases error with
    | lineMissing line count => rfl
    | mismatch mismatches => rw [happly] at h; cases h

theorem applyOrRecover_none (h : isStale session text edits = true) :
    (applyOrRecover session none text edits).isOk = false := by
  rw [isStale] at h
  rw [applyOrRecover]
  cases happly : applyHashlineEdits text edits session.autoDropPureInsertDuplicates with
  | ok result => rw [happly] at h; cases h
  | error error =>
    cases error with
    | lineMissing line count => rw [happly] at h; cases h
    | mismatch mismatches => rfl

def cacheAfter (session : Session) (cache : FileReadCache) (loaded : LoadedSection) :
    FileReadCache :=
  if isStale session loaded.normalized loaded.edits then (cache.get loaded.absolutePath).2
    else cache

theorem applyHashlineEditsWithRecovery_eq (cache : FileReadCache) (loaded : LoadedSection) :
    applyHashlineEditsWithRecovery session cache loaded.absolutePath loaded.normalized
      loaded.edits =
      (applyOrRecover session (cache.get loaded.absolutePath).1 loaded.normalized loaded.edits,
        cacheAfter session cache loaded) := by
  rw [applyHashlineEditsWithRecovery, cacheAfter]
  split
  · rfl
  · next h => rw [applyOrRecover_congr (by simpa using h) none]

structure Ready (session : Session) (files : Text → Option Text)
    (snapshot : Option FileReadSnapshot)
    (sec : HashlineInputSection) (loaded : LoadedSection) (lines : Text) : Prop where
  load : loadSection session files sec = .ok loaded
  apply : applyOrRecover session snapshot loaded.normalized loaded.edits = .ok lines
  changed : lines ≠ loaded.normalized

theorem Ready.snapshot_isSome {snapshot : Option FileReadSnapshot}
    (h : Ready session files snapshot sec loaded lines)
    (hstale : isStale session loaded.normalized loaded.edits = true) : ∃ v, snapshot = some v := by
  cases snapshot with
  | some v => exact ⟨v, rfl⟩
  | none =>
    have hfail := applyOrRecover_none hstale
    rw [h.apply] at hfail
    cases hfail

theorem preflightHashlineSection_files (s : ExecState) (sec : HashlineInputSection) :
    (preflightHashlineSection session s sec).2.files = s.files := by
  rw [preflightHashlineSection]
  split <;> rfl

theorem preflightSections_files (s : ExecState) (sections : List HashlineInputSection) :
    (preflightSections session s sections).2.files = s.files := by
  induction sections generalizing s with
  | nil => rfl
  | cons sec sections ih =>
    have hfiles : (preflightHashlineSection session s sec).2.files = s.files :=
      preflightHashlineSection_files s sec
    rw [preflightSections]
    split
    · next error t heq => rw [heq] at hfiles; exact hfiles
    · next t heq => rw [ih t]; rw [heq] at hfiles; exact hfiles

theorem ready_of_preflight (h : preflightHashlineSection session s sec = (.ok (), t)) :
    ∃ loaded lines, Ready session s.files (s.cache.get loaded.absolutePath).1 sec loaded lines ∧
      t = { s with cache := cacheAfter session s.cache loaded } := by
  rw [preflightHashlineSection] at h
  cases hload : loadSection session s.files sec with
  | error e => rw [hload] at h; cases h
  | ok loaded =>
    rw [hload] at h
    simp only [applyHashlineEditsWithRecovery_eq] at h
    cases happly : applyOrRecover session (s.cache.get loaded.absolutePath).1 loaded.normalized
        loaded.edits with
    | error e => rw [happly] at h; cases h
    | ok lines =>
      rw [happly] at h
      by_cases hchanged : lines = loaded.normalized
      · simp [bind, Except.bind, hchanged] at h
      · refine ⟨loaded, lines, ⟨hload, happly, hchanged⟩, ?_⟩
        exact (Prod.mk.inj h).2.symm

def sectionKey (session : Session) (sec : HashlineInputSection) : Text :=
  (resolvePlanPath session sec.path).toOption.getD []

theorem sectionKey_of_load (h : loadSection session files sec = .ok loaded) :
    sectionKey session sec = loaded.absolutePath := by
  rw [sectionKey, loadSection_absolutePath h]
  rfl

theorem isStaleSection_of_load (h : loadSection session files sec = .ok loaded) :
    isStaleSection session files sec = isStale session loaded.normalized loaded.edits := by
  rw [isStaleSection, h]

def staleKeys (session : Session) (files : Text → Option Text)
    (sections : List HashlineInputSection) : List Text :=
  (sections.filter (isStaleSection session files)).map (sectionKey session)

theorem mem_of_mem_staleKeys (h : q ∈ staleKeys session files sections) :
    q ∈ sections.map (sectionKey session) :=
  (List.filter_sublist.map (sectionKey session)).subset h

theorem tracked_preflightSections {K : List Text} {k : Text} {v : FileReadSnapshot}
    (h : preflightSections session s sections = (.ok (), t))
    (hk : k ∉ sections.map (sectionKey session))
    (hK : ∀ q ∈ sections.map (sectionKey session), q ∉ K)
    (hnodup : (sections.map (sectionKey session)).Nodup) (htracked : Lru.Tracked K k v s.cache) :
    Lru.Tracked ((staleKeys session s.files sections).reverse ++ K) k v t.cache := by
  induction sections generalizing s K with
  | nil =>
    cases h
    exact htracked
  | cons sec sections ih =>
    rw [preflightSections] at h
    split at h
    · cases h
    · next u heq =>
      obtain ⟨loaded, lines, hready, rfl⟩ := ready_of_preflight heq
      obtain ⟨hhead, hnodup⟩ := List.nodup_cons.1 hnodup
      rw [List.map_cons, List.mem_cons, not_or] at hk
      obtain ⟨hkey, hk⟩ := hk
      rw [sectionKey_of_load hready.load] at hkey hhead
      have hstale := isStaleSection_of_load hready.load
      cases hcase : isStale session loaded.normalized loaded.edits with
      | false =>
        rw [hcase] at hstale
        have hrest := ih h hk (fun q hq => hK q (by simp [hq])) hnodup
          (by rw [cacheAfter, hcase]; exact htracked)
        rwa [staleKeys, List.filter_cons_of_neg (by simp [hstale])]
      | true =>
        rw [hcase] at hstale
        obtain ⟨w, hw⟩ := hready.snapshot_isSome hcase
        have hnew : loaded.absolutePath ∉ K := by
          rw [← sectionKey_of_load hready.load]
          exact hK _ (by simp)
        have hused := htracked.get_of_not_mem (Ne.symm hkey) hnew hw
        have hrest := ih h hk (K := loaded.absolutePath :: K) (fun q hq => ?_) hnodup
          (by rw [cacheAfter, hcase]; exact hused)
        · rw [staleKeys, List.filter_cons_of_pos hstale, List.map_cons, List.reverse_cons,
            sectionKey_of_load hready.load, List.append_assoc]
          exact hrest
        · rw [List.mem_cons, not_or]
          exact ⟨fun heq => hhead (heq ▸ hq), hK q (by simp [hq])⟩

/-- Each snapshot that a stale section needs, with the keys used since its preflight: those of the
stale sections after it, and the keys `done` of the sections executed so far. -/
def SnapshotsTracked (session : Session) (s : ExecState) (done : List Text)
    (cache : FileReadCache) :
    List HashlineInputSection → Prop
  | [] => True
  | sec :: after =>
    (∀ v, isStaleSection session s.files sec = true →
      (s.cache.get (sectionKey session sec)).1 = some v →
      Lru.Tracked (done ++ (staleKeys session s.files after).reverse) (sectionKey session sec) v
        cache) ∧
    SnapshotsTracked session s done cache after

theorem SnapshotsTracked.of_get_eq {done : List Text} (hfiles : t.files = s.files)
    (hget : ∀ k ∈ sections.map (sectionKey session), (t.cache.get k).1 = (s.cache.get k).1)
    (h : SnapshotsTracked session t done cache sections) :
    SnapshotsTracked session s done cache sections := by
  induction sections with
  | nil => trivial
  | cons sec sections ih =>
    refine ⟨fun v hstale hv => ?_, ih (fun k hk => hget k (by simp [hk])) h.2⟩
    rw [← hfiles] at hstale ⊢
    refine h.1 v hstale ?_
    rw [hget _ (by simp)]
    exact hv

theorem SnapshotsTracked.set {s : ExecState} {done : List Text} (w : FileReadSnapshot)
    (hdone : q ∉ done)
    (hq : q ∉ sections.map (sectionKey session))
    (h : SnapshotsTracked session s done cache sections) :
    SnapshotsTracked session s (q :: done) (cache.set q w) sections := by
  induction sections with
  | nil => trivial
  | cons sec sections ih =>
    rw [List.map_cons, List.mem_cons, not_or] at hq
    refine ⟨fun v hstale hv => ?_, ih hq.2 h.2⟩
    refine (h.1 v hstale hv).set_of_not_mem w hq.1 fun hmem => ?_
    rcases List.mem_append.1 hmem with hmem | hmem
    · exact hdone hmem
    · exact hq.2 (mem_of_mem_staleKeys (List.mem_reverse.1 hmem))

theorem snapshotsTracked_preflightSections (h : preflightSections session s sections = (.ok (), t))
    (hnodup : (sections.map (sectionKey session)).Nodup) :
    (∀ sec ∈ sections, ∃ loaded lines,
      Ready session s.files (s.cache.get loaded.absolutePath).1 sec loaded lines) ∧
    SnapshotsTracked session s [] t.cache sections := by
  induction sections generalizing s with
  | nil => exact ⟨by simp, trivial⟩
  | cons sec sections ih =>
    rw [preflightSections] at h
    split at h
    · cases h
    · next u heq =>
      obtain ⟨loaded, lines, hready, rfl⟩ := ready_of_preflight heq
      obtain ⟨hhead, hnodup⟩ := List.nodup_cons.1 hnodup
      obtain ⟨hreadyRest, htrackedRest⟩ := ih h hnodup
      -- The head uses only its own key, so that the others keep their snapshots.
      have hget : ∀ k ∈ sections.map (sectionKey session),
          ((cacheAfter session s.cache loaded).get k).1 = (s.cache.get k).1 := by
        intro k hk
        rw [cacheAfter]
        split
        · refine Lru.get_fst_get fun heq => hhead ?_
          rw [sectionKey_of_load hready.load, heq]
          exact hk
        · rfl
      refine ⟨fun other hother => ?_, fun v hstale hv => ?_, ?_⟩
      · rcases List.mem_cons.1 hother with rfl | hother
        · exact ⟨loaded, lines, hready⟩
        · obtain ⟨loadedOther, linesOther, hreadyOther⟩ := hreadyRest other hother
          refine ⟨loadedOther, linesOther, hreadyOther.load, ?_, hreadyOther.changed⟩
          rw [← hget _ (by
            rw [← sectionKey_of_load hreadyOther.load]
            exact List.mem_map_of_mem hother)]
          exact hreadyOther.apply
      · rw [sectionKey_of_load hready.load] at hv hhead ⊢
        rw [isStaleSection_of_load hready.load] at hstale
        have hused := tracked_preflightSections h hhead (fun q hq => List.not_mem_nil) hnodup
          (by rw [cacheAfter, hstale]; exact Lru.tracked_get (by decide) hv)
        rw [List.append_nil] at hused
        exact hused
      · refine SnapshotsTracked.of_get_eq ?_ hget htrackedRest
        rfl

theorem executeHashlineSection_files_of_error {s : ExecState}
    (h : (executeHashlineSection session s sec).1.isOk = false) :
    (executeHashlineSection session s sec).2.files = s.files := by
  revert h
  rw [executeHashlineSection]
  cases loadSection session s.files sec with
  | error e => exact fun _ => rfl
  | ok loaded =>
    simp only [applyHashlineEditsWithRecovery_eq]
    cases applyOrRecover session (s.cache.get loaded.absolutePath).1 loaded.normalized
        loaded.edits with
    | error e => exact fun _ => rfl
    | ok lines =>
      dsimp only
      split
      · exact fun _ => rfl
      · cases serializeSection session s.files sec loaded lines with
        | error e => exact fun _ => rfl
        | ok content => exact fun h => by cases h

theorem executeHashlineSection_of_ready {s : ExecState}
    (h : Ready session s.files (s.cache.get loaded.absolutePath).1 sec loaded lines) :
    executeHashlineSection session s sec =
      match serializeSection session s.files sec loaded lines with
      | .error error => (.error error, { s with cache := cacheAfter session s.cache loaded })
      | .ok finalContent =>
        (.ok ⟨sec.path, if loaded.exists? then .updated else .created⟩,
          { files := Function.update s.files (session.fileOf loaded.absolutePath) (some
            finalContent)
            cache := (cacheAfter session s.cache loaded).recordLines loaded.absolutePath
              (Text.splitLines lines) }) := by
  have happly := @applyHashlineEditsWithRecovery_eq session s.cache loaded
  rw [h.apply] at happly
  rw [executeHashlineSection, h.load]
  dsimp only
  rw [happly]
  exact if_neg h.changed

theorem executeHashlineSection_isOk_of_apply_error {s : ExecState}
    (hload : loadSection session s.files sec = .ok loaded)
    (h : (applyOrRecover session (s.cache.get loaded.absolutePath).1 loaded.normalized
      loaded.edits).isOk = false) :
    (executeHashlineSection session s sec).1.isOk = false := by
  rw [executeHashlineSection, hload]
  simp only [applyHashlineEditsWithRecovery_eq]
  cases happly : applyOrRecover session (s.cache.get loaded.absolutePath).1 loaded.normalized
      loaded.edits with
  | error e => rfl
  | ok lines => rw [happly] at h; cases h

theorem exists_recordLines_cacheAfter (cache : FileReadCache) (loaded : LoadedSection)
    (lines : List Text) :
    ∃ w, (cacheAfter session cache loaded).recordLines loaded.absolutePath lines =
      cache.set loaded.absolutePath w := by
  refine ⟨FileReadSnapshot.record ((cacheAfter session cache loaded).get loaded.absolutePath).1
    (lines.mapIdx fun i line => (i + 1, line)), ?_⟩
  change ((cacheAfter session cache loaded).get loaded.absolutePath).2.set _ _ = _
  rw [Lru.set_get, cacheAfter]
  split
  · exact Lru.set_get ..
  · rfl

theorem executeSections_cons_isOk {s : ExecState} :
    (executeSections session s (sec :: sections)).1.isOk = true ↔
      (executeHashlineSection session s sec).1.isOk = true ∧
        (executeSections session (executeHashlineSection session s sec).2 sections).1.isOk =
          true := by
  rw [executeSections]
  rcases executeHashlineSection session s sec with ⟨result, t⟩
  cases result with
  | error e => simp [Except.isOk, Except.toBool]
  | ok result =>
    cases hrest : (executeSections session t sections).1 <;>
      simp [Except.isOk, Except.toBool, Except.map, hrest]

theorem sectionFile_of_load (h : loadSection session files sec = .ok loaded) :
    sectionFile session sec = some (session.fileOf loaded.absolutePath) := by
  rw [sectionFile, loadSection_absolutePath h]
  rfl

theorem Ready.transfer
    (h : Ready session s.files (s.cache.get loaded.absolutePath).1 sec loaded lines)
    (hfiles : ∀ file, sectionFile session sec = some file → t.files file = s.files file)
    (hsnapshot : isStale session loaded.normalized loaded.edits = true →
      (t.cache.get loaded.absolutePath).1 = (s.cache.get loaded.absolutePath).1) :
    Ready session t.files (t.cache.get loaded.absolutePath).1 sec loaded lines := by
  refine ⟨by rw [loadSection_congr hfiles, h.load], ?_, h.changed⟩
  cases hstale : isStale session loaded.normalized loaded.edits with
  | true => rw [hsnapshot hstale, h.apply]
  | false => rw [applyOrRecover_congr hstale _ (s.cache.get loaded.absolutePath).1, h.apply]

theorem serializeSection_congr
    (h : files (session.fileOf loaded.absolutePath) = others (session.fileOf loaded.absolutePath))
    (lines : Text) :
    serializeSection session files sec loaded lines =
      serializeSection session others sec loaded lines := by
  rw [serializeSection, serializeSection, h]

theorem editsSerialize_iff {s : ExecState}
    (h : Ready session s.files (s.cache.get loaded.absolutePath).1 sec loaded lines) :
    EditsSerialize session s sec ↔
      (serializeSection session s.files sec loaded lines).isOk = true := by
  refine ⟨fun hall => hall loaded lines h.load h.apply, fun hok other linesOther hload happly => ?_⟩
  obtain rfl : loaded = other := Except.ok.inj (h.load.symm.trans hload)
  obtain rfl : lines = linesOther := Except.ok.inj (h.apply.symm.trans happly)
  exact hok

/-- The sections of `rest`, which preflight found ready in the state `s`, before their execution in
the state `t`, when the sections with the keys `done` are executed. -/
structure Pending (session : Session) (s t : ExecState) (done : List Text)
    (rest : List HashlineInputSection) : Prop where
  ready : ∀ sec ∈ rest, ∃ loaded lines,
    Ready session s.files (s.cache.get loaded.absolutePath).1 sec loaded lines
  files : ∀ sec ∈ rest, ∀ file, sectionFile session sec = some file → t.files file = s.files file
  distinct : DistinctFiles session rest
  nodup : (rest.map (sectionKey session)).Nodup
  fresh : ∀ q ∈ rest.map (sectionKey session), q ∉ done
  tracked : SnapshotsTracked session s done t.cache rest

section Pending

variable {s t : ExecState} {done : List Text} {sec : HashlineInputSection}
  {rest : List HashlineInputSection} {loaded : LoadedSection} {lines : Text}

variable (h : Pending session s t done (sec :: rest))
include h

theorem Pending.snapshot (hload : loadSection session s.files sec = .ok loaded)
    (hstale : isStaleSection session s.files sec = true) {v : FileReadSnapshot}
    (hv : (s.cache.get loaded.absolutePath).1 = some v) :
    (t.cache.get loaded.absolutePath).1 =
      if done.length + (rest.filter (isStaleSection session s.files)).length < MAX_PATHS_PER_SESSION
      then some v else none := by
  have htracked := h.tracked.1 v hstale (by rw [sectionKey_of_load hload, hv])
  rw [sectionKey_of_load hload] at htracked
  rw [htracked.get_fst]
  simp [staleKeys]

variable (hsec : Ready session s.files (s.cache.get loaded.absolutePath).1 sec loaded lines)
include hsec

theorem Pending.ready_head
    (hroom : isStaleSection session s.files sec = true →
      done.length + (rest.filter (isStaleSection session s.files)).length < MAX_PATHS_PER_SESSION) :
    Ready session t.files (t.cache.get loaded.absolutePath).1 sec loaded lines := by
  refine hsec.transfer (h.files sec (by simp)) fun hstale => ?_
  obtain ⟨v, hv⟩ := hsec.snapshot_isSome hstale
  rw [← isStaleSection_of_load hsec.load] at hstale
  rw [h.snapshot hsec.load hstale hv, if_pos (hroom hstale), hv]

theorem Pending.not_isOk_head (hstale : isStaleSection session s.files sec = true)
    (hfull : ¬ done.length + (rest.filter (isStaleSection session s.files)).length <
      MAX_PATHS_PER_SESSION) :
    (executeHashlineSection session t sec).1.isOk = false := by
  have hstaleSec := hstale
  rw [isStaleSection_of_load hsec.load] at hstaleSec
  obtain ⟨v, hv⟩ := hsec.snapshot_isSome hstaleSec
  refine executeHashlineSection_isOk_of_apply_error
    ((loadSection_congr (h.files sec (by simp))).trans hsec.load) ?_
  rw [h.snapshot hsec.load hstale hv, if_neg hfull]
  exact applyOrRecover_none hstaleSec

omit hsec

theorem Pending.next (hload : loadSection session s.files sec = .ok loaded) (content : Text)
    (lines : List Text) :
    Pending session s ⟨Function.update t.files (session.fileOf loaded.absolutePath) (some content),
      (cacheAfter session t.cache loaded).recordLines loaded.absolutePath lines⟩
      (loaded.absolutePath :: done) rest := by
  obtain ⟨hhead, hnodup⟩ := List.nodup_cons.1 h.nodup
  obtain ⟨hothers, hdistinct⟩ := List.pairwise_cons.1 h.distinct
  have hdone := h.fresh (sectionKey session sec) (by simp)
  rw [sectionKey_of_load hload] at hhead hdone
  refine ⟨fun other hother => h.ready other (by simp [hother]), fun other hother file hfile => ?_,
    hdistinct, hnodup, fun q hq => ?_, ?_⟩
  · have hne : file ≠ session.fileOf loaded.absolutePath := by
      rintro rfl
      exact hothers other hother _ (sectionFile_of_load hload) hfile
    exact (Function.update_of_ne hne _ _).trans (h.files other (by simp [hother]) file hfile)
  · rw [List.mem_cons, not_or]
    exact ⟨fun heq => hhead (heq ▸ hq), h.fresh q (by simp [hq])⟩
  · obtain ⟨w, hw⟩ :
        ∃ w, (cacheAfter session t.cache loaded).recordLines loaded.absolutePath lines =
        t.cache.set loaded.absolutePath w := exists_recordLines_cacheAfter t.cache loaded lines
    rw [hw]
    exact h.tracked.2.set w hdone hhead

omit h

theorem Pending.executeSections_isOk_iff (h : Pending session s t done rest) :
    (executeSections session t rest).1.isOk = true ↔
      (∀ sec ∈ rest, EditsSerialize session s sec) ∧
        SnapshotsKept session s.files done.length rest := by
  induction rest generalizing t done with
  | nil => simp [executeSections, SnapshotsKept, Except.isOk, Except.toBool]
  | cons sec rest ih =>
    obtain ⟨loaded, lines, hsec⟩ := h.ready sec (by simp)
    rw [executeSections_cons_isOk, List.forall_mem_cons, editsSerialize_iff hsec]
    by_cases hroom : isStaleSection session s.files sec = true →
        done.length + (rest.filter (isStaleSection session s.files)).length < MAX_PATHS_PER_SESSION
    · rw [executeHashlineSection_of_ready (h.ready_head hsec hroom),
        serializeSection_congr (h.files sec (by simp) _ (sectionFile_of_load hsec.load))]
      cases hserialize : serializeSection session s.files sec loaded lines with
      | error e => simp [Except.isOk, Except.toBool]
      | ok content =>
        have hrest := ih (h.next hsec.load content (Text.splitLines lines))
        simp only [SnapshotsKept, Except.isOk, Except.toBool] at hrest ⊢
        rw [hrest]
        simp only [List.length_cons, true_and]
        exact ⟨fun hall => ⟨hall.1, hroom, hall.2⟩, fun hall => ⟨hall.1, hall.2.2⟩⟩
    · rw [Classical.not_imp] at hroom
      rw [h.not_isOk_head hsec hroom.1 hroom.2]
      exact ⟨fun hall => (Bool.false_ne_true hall.1).elim,
        fun hall => absurd (hall.2.1 hroom.1) hroom.2⟩

end Pending

theorem executeSections_singleton (s : ExecState) (sec : HashlineInputSection) :
    (executeSections session s [sec]).1.isOk = (executeHashlineSection session s sec).1.isOk ∧
      (executeSections session s [sec]).2 = (executeHashlineSection session s sec).2 := by
  rw [executeSections]
  rcases executeHashlineSection session s sec with ⟨result, t⟩
  cases result <;> exact ⟨rfl, rfl⟩

variable {sections : List HashlineInputSection}

theorem nodup_sectionKey {files : Text → Option Text}
    (hload : ∀ sec ∈ sections, ∃ loaded, loadSection session files sec = .ok loaded)
    (hdistinct : DistinctFiles session sections) : (sections.map (sectionKey session)).Nodup := by
  rw [List.Nodup, List.pairwise_map]
  refine List.Pairwise.imp_of_mem ?_ hdistinct
  intro a b ha hb hfile heq
  obtain ⟨loadedA, hloadA⟩ := hload a ha
  obtain ⟨loadedB, hloadB⟩ := hload b hb
  rw [sectionKey_of_load hloadA, sectionKey_of_load hloadB] at heq
  refine hfile _ (sectionFile_of_load hloadA) ?_
  rw [sectionFile_of_load hloadB, heq]

theorem load_of_preflightSections (h : preflightSections session s sections = (.ok (), t)) :
    ∀ sec ∈ sections, ∃ loaded, loadSection session s.files sec = .ok loaded := by
  induction sections generalizing s with
  | nil => simp
  | cons sec sections ih =>
    rw [preflightSections] at h
    split at h
    · cases h
    · next u heq =>
      obtain ⟨loaded, lines, hready, rfl⟩ := ready_of_preflight heq
      have hrest := ih h
      rw [List.forall_mem_cons]
      exact ⟨⟨loaded, hready.load⟩, hrest⟩

theorem runSections_isOk_iff (hdistinct : DistinctFiles session sections)
    (h : preflightSections session s sections = (.ok (), t)) :
    (runSections session s sections).1.isOk = true ↔
      (∀ sec ∈ sections, EditsSerialize session s sec) ∧
        SnapshotsKept session s.files 0 sections := by
  have hnodup := nodup_sectionKey (load_of_preflightSections h) hdistinct
  obtain ⟨hready, htracked⟩ := snapshotsTracked_preflightSections h hnodup
  rw [runSections]
  split
  · -- A single section runs without preflight, in the state where it is ready.
    next hlength =>
    obtain ⟨sec, rfl⟩ := List.length_eq_one_iff.1 hlength
    obtain ⟨loaded, lines, hsec⟩ := hready sec (by simp)
    rw [(executeSections_singleton s sec).1, executeHashlineSection_of_ready hsec,
      List.forall_mem_singleton, editsSerialize_iff hsec]
    have hkept : SnapshotsKept session s.files 0 [sec] := ⟨fun _ => Nat.succ_pos _, trivial⟩
    cases serializeSection session s.files sec loaded lines <;>
      simp [Except.isOk, Except.toBool, hkept]
  · have hfiles : (preflightSections session s sections).2.files = s.files :=
      preflightSections_files s sections
    rw [h] at hfiles ⊢
    have hpending : Pending session s t [] sections :=
      ⟨hready, fun sec _ file _ => by rw [hfiles], hdistinct, hnodup, by simp, htracked⟩
    exact hpending.executeSections_isOk_iff

theorem runSections_files_of_preflight_error {s : ExecState}
    (h : (runSections session s sections).1.isOk = false)
    (hpreflight : sections.length = 1 ∨ (preflightSections session s sections).1.isOk = false) :
    (runSections session s sections).2.files = s.files := by
  rw [runSections] at h ⊢
  split at h
  · next hlength =>
    rw [if_pos hlength]
    obtain ⟨sec, rfl⟩ := List.length_eq_one_iff.1 hlength
    rw [(executeSections_singleton s sec).1] at h
    rw [(executeSections_singleton s sec).2]
    exact executeHashlineSection_files_of_error h
  · next hlength =>
    rw [if_neg hlength]
    have hfiles : (preflightSections session s sections).2.files = s.files :=
      preflightSections_files s sections
    replace hpreflight := hpreflight.resolve_left hlength
    rcases hresult : preflightSections session s sections with ⟨result, t⟩
    rw [hresult] at hpreflight hfiles
    cases result with
    | error e => exact hfiles
    | ok u => cases hpreflight

/-- A hashline input is applied as a whole or not at all, its sections of one file as one batch, if
and only if no two sections name one file under different spellings, and, when all sections pass
preflight, what they leave can be converted back and the snapshots they need stay in the cache. -/
theorem executeHashlineSingle_allOrNothing_iff (session : Session) (s : ExecState) (input : Text)
    (path : Option Text) :
    AllOrNothing session s input path ↔
      ∀ sections, hashlineSections session input path = .ok sections →
        DistinctFiles session sections ∧
          ((preflightSections session s sections).1 = .ok () →
            (∀ sec ∈ sections, EditsSerialize session s sec) ∧
              SnapshotsKept session s.files 0 sections) := by
  have hrun : ∀ sections, hashlineSections session input path = .ok sections →
      executeHashlineSingle session s input path = runSections session s sections := by
    intro sections hsections
    rw [executeHashlineSingle, hsections]
  constructor
  · intro h sections hsections
    have hdistinct := h.batched sections hsections
    refine ⟨hdistinct, fun hpreflight => ?_⟩
    have hok := h.executes sections hsections hpreflight
    rw [hrun sections hsections] at hok
    exact (runSections_isOk_iff hdistinct (Prod.ext hpreflight rfl)).1 hok
  · intro h
    have hexecutes : ∀ sections, hashlineSections session input path = .ok sections →
        (preflightSections session s sections).1 = .ok () →
        (runSections session s sections).1.isOk = true := by
      intro sections hsections hpreflight
      obtain ⟨hdistinct, hconds⟩ := h sections hsections
      exact (runSections_isOk_iff hdistinct (Prod.ext hpreflight rfl)).2 (hconds hpreflight)
    refine ⟨fun sections hsections hpreflight => ?_, fun hfail => ?_, fun sections hsections => ?_⟩
    · rw [hrun sections hsections]
      exact hexecutes sections hsections hpreflight
    · cases hsections : hashlineSections session input path with
      | error e => rw [executeHashlineSingle, hsections]
      | ok sections =>
        rw [hrun sections hsections] at hfail ⊢
        refine runSections_files_of_preflight_error hfail (.inr ?_)
        cases hpreflight : (preflightSections session s sections).1 with
        | error e => rfl
        | ok u =>
          rw [hexecutes sections hsections hpreflight] at hfail
          cases hfail
    · exact (h sections hsections).1

/-- A session in `/w` without plan mode, notebooks, generated files or links. -/
def plainSession : Session where
  paths := ⟨"/home".toList, "/w".toList, fun _ => none⟩
  cwd := "/w".toList
  planFile := none
  autoDropPureInsertDuplicates := false
  fileOf := id
  resolveLocalUrlToPath := fun url => .error url
  readEditFileText := fun _ _ raw => .ok raw
  serializeEditFileText := fun _ _ _ content => .ok content
  assertEditableFileContent := fun _ _ => .ok ()
  merge := fun _ _ _ => none

def threeLines : ExecState where
  files := fun path => if path = "/w/a.ts".toList then some "one\ntwo\nthree\n".toList else none
  cache := Lru.empty

/-- The first line is deleted, and the third replaced, under two spellings of the path. -/
def twoSpellings : Text := "§a.ts\n≔1yc\n§./a.ts\n≔3hq\nTHREE".toList

/-- The first section is written before the second one fails on the moved line. -/
theorem executeHashlineSingle_partial :
    ¬ AllOrNothing plainSession threeLines twoSpellings none := by
  intro h
  have hrun : (executeHashlineSingle plainSession threeLines twoSpellings none).1.isOk = false ∧
      (executeHashlineSingle plainSession threeLines twoSpellings none).2.files "/w/a.ts".toList =
        some "two\nthree\n".toList := by
    decide +kernel
  obtain ⟨hfail, hwritten⟩ := hrun
  have hfiles := congrFun (h.unchanged hfail) "/w/a.ts".toList
  rw [hwritten] at hfiles
  exact absurd hfiles (by decide +kernel)

end Vibrato.Hashline

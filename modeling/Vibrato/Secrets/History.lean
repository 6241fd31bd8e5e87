import Vibrato.Lib.SortedInsert
import Vibrato.Secrets.Coverage

namespace Vibrato.Secrets

open Lib List

namespace SecretObfuscator

variable (key : Key)

def findsFrom : List RegexEntry → SecretObfuscator × Text → List Text
  | [], _ => []
  | entry :: entries, st =>
    (if entry.mode = .obfuscate then entry.regex.matchValues st.2 else []) ++
      findsFrom entries (processEntry key st entry)

def finds (o : SecretObfuscator) (text : Text) : List Text :=
  if o.hasAny then findsFrom key o.regexEntries (o, o.obfuscatePlainMappings text) else []

def findsAll (o : SecretObfuscator) : List Text → List Text
  | [] => []
  | text :: texts => o.finds key text ++ findsAll (o.obfuscate key text).1 texts

def plainEntries (values : List Text) : List SecretEntry :=
  values.filterMap fun value =>
    if h : value ≠ [] then some (.plain value h .obfuscate none) else none

structure Alike (o o' : SecretObfuscator) : Prop where
  regexEntries : o.regexEntries = o'.regexEntries
  replace : o.sortedReplaceMappings = o'.sortedReplaceMappings
  obfuscate : o.sortedObfuscateMappings = o'.sortedObfuscateMappings
  hasAny : o.hasAny = o'.hasAny

variable {key} {o o' o'' : SecretObfuscator}

theorem Alike.trans (h : Alike o o') (h' : Alike o' o'') : Alike o o'' :=
  ⟨h.regexEntries.trans h'.regexEntries, h.replace.trans h'.replace, h.obfuscate.trans h'.obfuscate,
    h.hasAny.trans h'.hasAny⟩

theorem Alike.mappings (h : Alike o o') : o.mappings = o'.mappings := by
  rw [SecretObfuscator.mappings, h.replace, h.obfuscate]
  rfl

theorem Alike.discover (h : Alike o o') (value : Text) :
    Alike (o.discover key value) (o'.discover key value) := by
  unfold SecretObfuscator.discover
  rw [h.obfuscate]
  split
  · exact h
  · exact ⟨h.regexEntries, h.replace, rfl, h.hasAny⟩

theorem Alike.replaceMatches (entry : RegexEntry) (values : List Text) {text : Text}
    (h : Alike o o') :
    Alike (values.foldl (replaceMatch key entry) (o, text)).1
        (values.foldl (replaceMatch key entry) (o', text)).1 ∧
      (values.foldl (replaceMatch key entry) (o, text)).2 =
        (values.foldl (replaceMatch key entry) (o', text)).2 := by
  induction values generalizing o o' text with
  | nil => exact ⟨h, rfl⟩
  | cons value values ih =>
    apply ih
    split
    · exact h.discover value
    · exact h

theorem Alike.processEntries (entries : List RegexEntry) {text : Text} (h : Alike o o') :
    (entries.foldl (processEntry key) (o, text)).2 =
      (entries.foldl (processEntry key) (o', text)).2 := by
  induction entries generalizing o o' text with
  | nil => rfl
  | cons entry entries ih =>
    obtain ⟨hstate, htext⟩ :=
      @Alike.replaceMatches key o o' entry (entry.regex.matchValues text) text h
    exact (ih hstate).trans (congrArg (fun t => (entries.foldl (processEntry key) (_, t)).2) htext)

theorem Alike.obfuscate_eq (h : Alike o o') (text : Text) :
    (o.obfuscate key text).2 = (o'.obfuscate key text).2 := by
  have hplain : o.obfuscatePlainMappings text = o'.obfuscatePlainMappings text := by
    unfold obfuscatePlainMappings useSequentialPlainReplacement obfuscatePlainMappingsSequential
    rw [h.mappings]
  unfold SecretObfuscator.obfuscate
  rw [h.hasAny, h.regexEntries, hplain]
  split
  · exact h.processEntries _
  · rfl

theorem insertIndex_eq {mappings : List Mapping}
    (hsorted : mappings.Pairwise fun a b => b.size ≤ a.size) {size fuel lo hi : Nat}
    (hlo : lo ≤ (mappings.takeWhile fun m => size ≤ m.size).length)
    (hhi : (mappings.takeWhile fun m => size ≤ m.size).length ≤ hi) (hlength : hi ≤ mappings.length)
    (hfuel : hi ≤ lo + fuel) :
    insertIndex mappings size fuel lo hi = (mappings.takeWhile fun m => size ≤ m.size).length := by
  induction fuel generalizing lo hi with
  | zero =>
    rw [insertIndex]
    omega
  | succ fuel ih =>
    rw [insertIndex]
    split
    · next hlt =>
      -- The search keeps the end of the larger mappings between `lo` and `hi`.
      have hmid : (lo + hi) / 2 < mappings.length := by omega
      have hget := getElem?_eq_getElem hmid
      have hiff := lt_length_takeWhile_iff Mapping.size hsorted (n := size) hget
      simp only [hget, Option.elim_some]
      split
      · exact ih hlo (by omega) (by omega) (by omega)
      · exact ih (by omega) hhi hlength (by omega)
    · omega

theorem insertSortedObfuscateMapping_eq {mappings : List Mapping}
    (hsorted : mappings.Pairwise fun a b => b.size ≤ a.size) (m : Mapping) :
    insertSortedObfuscateMapping mappings m = insertLast Mapping.size m mappings := by
  have hindex := @insertIndex_eq mappings hsorted m.size mappings.length 0 mappings.length
    (Nat.zero_le _) ( takeWhile_prefix _).length_le (Nat.le_refl _) (Nat.le_add_left _ _)
  have hsplit := takeWhile_append_dropWhile (p := fun b : Mapping => m.size ≤ b.size)
    (l := mappings)
  rw [insertSortedObfuscateMapping, hindex, insertLast]
  generalize mappings.takeWhile (fun b => m.size ≤ b.size) = larger at hsplit ⊢
  generalize mappings.dropWhile (fun b => m.size ≤ b.size) = smaller at hsplit ⊢
  rw [← hsplit, take_left, drop_left]

theorem setMapping_eq_self {mappings : List Mapping} {m : Mapping}
    (hknown : mappings.any (·.secret = m.secret) = true)
    (hsame : ∀ m' ∈ mappings, m'.secret = m.secret → m' = m) :
    setMapping mappings m = mappings := by
  rw [setMapping, if_pos hknown]
  refine (map_congr_left fun m' hm' => ?_).trans (map_id mappings)
  split
  · next hsecret => exact (hsame m' hm' hsecret).symm
  · rfl

theorem any_sortMappings (mappings : List Mapping) (p : Mapping → Bool) :
    (sortMappings mappings).any p = mappings.any p := by
  rw [Bool.eq_iff_iff, any_eq_true, any_eq_true]
  simp only [mem_sortMappings]

variable (key)

variable {entries : List SecretEntry} {value : Text} {entry : RegexEntry}

theorem discover_alike (hentries : entries ≠ []) (hvalue : value ≠ []) :
    Alike ((ofEntries key entries).discover key value)
      (ofEntries key (entries ++ [.plain value hvalue .obfuscate none])) := by
  have hplaceholder := (ofEntries_wellFormed key entries).placeholder
  have hempty : (entries ++ [SecretEntry.plain value hvalue .obfuscate none]).isEmpty =
      entries.isEmpty := by
    cases entries with
    | nil => exact absurd rfl hentries
    | cons => rfl
  rw [ofEntries, ofEntries, hempty, foldl_append] at *
  generalize entries.foldl (addEntry key) _ = c at hplaceholder ⊢
  simp only [foldl_cons, foldl_nil, addEntry, SecretObfuscator.discover, any_sortMappings]
  split
  · next hknown =>
    refine ⟨rfl, rfl, ?_, rfl⟩
    rw [setMapping_eq_self hknown]
    rintro ⟨secret, replacement⟩ hm hsecret
    have hreplacement := (hplaceholder _ (mem_sortMappings.2 hm)).1
    simp only at hsecret hreplacement
    rw [hreplacement, hsecret]
  · next hnew =>
    refine ⟨rfl, rfl, ?_, rfl⟩
    rw [setMapping, if_neg hnew]
    exact (insertSortedObfuscateMapping_eq (pairwise_insertionSort_key Mapping.size _) _).trans
      (insertionSort_concat Mapping.size _ _).symm

variable {key}

theorem plainEntries_cons (hvalue : value ≠ []) (values : List Text) :
    plainEntries (value :: values) =
      [.plain value hvalue .obfuscate none] ++ plainEntries values := by
  rw [plainEntries, filterMap_cons, dif_pos hvalue]
  rfl

theorem plainEntries_append (values later : List Text) :
    plainEntries (values ++ later) = plainEntries values ++ plainEntries later :=
  filterMap_append

theorem Alike.learns (hentries : entries ≠ []) (h : Alike o (ofEntries key entries))
    (hmode : entry.mode = .obfuscate)
    {values : List Text} (hvalues : ∀ value ∈ values, value ≠ []) (text : Text) :
    Alike (values.foldl (replaceMatch key entry) (o, text)).1
      (ofEntries key (entries ++ plainEntries values)) := by
  induction values generalizing o entries text with
  | nil => simpa [plainEntries] using h
  | cons value values ih =>
    have hvalue := hvalues value mem_cons_self
    rw [foldl_cons, replaceMatch, if_pos hmode, plainEntries_cons hvalue, ← append_assoc]
    exact ih (by simp) ((h.discover value).trans (discover_alike key hentries hvalue))
      (fun v hv => hvalues v (mem_cons_of_mem _ hv)) _

theorem replaceMatches_state (hmode : entry.mode ≠ .obfuscate) (values : List Text)
    (st : SecretObfuscator × Text) :
    (values.foldl (replaceMatch key entry) st).1 = st.1 := by
  induction values generalizing st with
  | nil => rfl
  | cons value values ih =>
    rw [foldl_cons, ih, replaceMatch, if_neg hmode]

theorem Alike.processEntries_learns {entries : List SecretEntry} (hentries : entries ≠ [])
    (h : Alike o (ofEntries key entries)) (regexEntries : List RegexEntry) (text : Text) :
    Alike (regexEntries.foldl (processEntry key) (o, text)).1
      (ofEntries key (entries ++ plainEntries (findsFrom key regexEntries (o, text)))) := by
  induction regexEntries generalizing o entries text with
  | nil => simpa [findsFrom, plainEntries] using h
  | cons entry regexEntries ih =>
    rw [findsFrom, plainEntries_append, ← append_assoc]
    have hstep : Alike (processEntry key (o, text) entry).1 (ofEntries key (entries ++ plainEntries
        (if entry.mode = .obfuscate then entry.regex.matchValues text else []))) := by
      rw [processEntry]
      split
      · next hmode =>
        exact h.learns hentries hmode (fun value hvalue => matchValue_ne_nil hvalue) text
      · next hmode =>
        rw [replaceMatches_state hmode]
        simpa [plainEntries] using h
    exact ih (by simp [hentries]) hstep _

theorem Alike.obfuscate_learns (h : Alike o (ofEntries key entries)) (text : Text) :
    Alike (o.obfuscate key text).1
      (ofEntries key (entries ++ plainEntries (o.finds key text))) := by
  rw [SecretObfuscator.obfuscate, finds]
  split
  · next hany =>
    have hentries : entries ≠ [] := by
      rintro rfl
      rw [h.hasAny] at hany
      cases hany
    exact h.processEntries_learns hentries _ _
  · simpa [plainEntries] using h

theorem Alike.obfuscateAll_learns (h : Alike o (ofEntries key entries)) (texts : List Text) :
    Alike (o.obfuscateAll key texts)
      (ofEntries key (entries ++ plainEntries (o.findsAll key texts))) := by
  induction texts generalizing o entries with
  | nil => simpa [obfuscateAll, findsAll, plainEntries] using h
  | cons text texts ih =>
    rw [findsAll, plainEntries_append, ← append_assoc]
    exact ih (h.obfuscate_learns text)

/-- After some texts, a text is treated as by a fresh obfuscator that has, after the same entries, a
plain one for each value found in these texts. -/
theorem obfuscate_after_texts (key : Key) (entries : List SecretEntry) (texts : List Text)
    (text : Text) :
    (((ofEntries key entries).obfuscateAll key texts).obfuscate key text).2 =
      ((ofEntries key (entries ++ plainEntries
        ((ofEntries key entries).findsAll key texts))).obfuscate key text).2 := by
  have hfresh : Alike (ofEntries key entries) (ofEntries key entries) := ⟨rfl, rfl, rfl, rfl⟩
  exact (hfresh.obfuscateAll_learns texts).obfuscate_eq text

/-- The regular expression `^abc`. -/
def startingAbc : Pattern where
  exec text lastIndex :=
    if lastIndex = 0 ∧ "abc".toList <+: text then some (0, 3) else none
  start_ge := by
    intro text lastIndex start length h
    split at h
    · next hmatch =>
      obtain ⟨rfl, rfl⟩ := Prod.mk.inj (Option.some.inj h)
      exact Nat.le_of_eq hmatch.1
    · cases h
  end_le := by
    intro text lastIndex start length h
    split at h
    · next hmatch =>
      obtain ⟨rfl, rfl⟩ := Prod.mk.inj (Option.some.inj h)
      exact hmatch.2.length_le
    · cases h

/-- The text `xabc` is left alone, but not after the text `abc`. -/
theorem obfuscate_depends_on_history :
    (((ofEntries constantKey [.regex (some startingAbc) .obfuscate none]).obfuscateAll constantKey
        ["abc".toList]).obfuscate constantKey "xabc".toList).2 ≠
      ((ofEntries constantKey [.regex (some startingAbc) .obfuscate none]).obfuscate constantKey
        "xabc".toList).2 := by
  decide +kernel

end SecretObfuscator

end Vibrato.Secrets

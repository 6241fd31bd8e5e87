import Vibrato.Secrets.Passes

namespace Vibrato.Secrets

open Lib SecretObfuscator List

abbrev MarkedText := List (Char × Option Nat)

variable (passes : List (List Mapping))

def tracedPasses (text : MarkedText) : MarkedText :=
  rewriteAll (passes.map fun mappings => markRule (literalRule mappings)) text

/-- The character at position `i` is left. -/
def Survives (traced : MarkedText) (i : Nat) : Prop := some i ∈ traced.map Prod.snd

/-- `result` is `base` with disjoint regions substituted: what is left of it is in order. -/
structure Substitutes (base result : Text) (traced : MarkedText) : Prop where
  text : traced.map Prod.fst = result
  kept : (traced.filter fun x => x.2.isSome).Sublist (mark base)

/-- The regions cover every match of every regex entry, in the text that the entry searches, and
meet every occurrence of every plain secret. -/
structure Covered (key : Key) (entries : List SecretEntry) (o : SecretObfuscator) (text : Text) :
    Prop where
  substitutes : Substitutes text (o.obfuscate key text).2
    (tracedPasses (o.passes key text) (mark text))
  substitutesPlain : Substitutes (o.obfuscatePlainMappings text) (o.obfuscate key text).2
    (tracedPasses (regexPasses key o.regexEntries (o.obfuscatePlainMappings text))
      (mark (o.obfuscatePlainMappings text)))
  meetsSecrets : ∀ content hne mode replacement,
    SecretEntry.plain content hne mode replacement ∈ entries →
      ∀ start, content <+: text.drop start → ∃ i, start ≤ i ∧ i < start + content.length ∧
        ¬Survives (tracedPasses (o.passes key text) (mark text)) i
  coversMatches : ∀ before entry after, o.regexEntries = before ++ entry :: after →
    ∀ m ∈ entry.regex.matches
      (runPasses (regexPasses key before (o.obfuscatePlainMappings text))
        (o.obfuscatePlainMappings text)),
    ∀ j, m.1 ≤ j → j < m.1 + m.2 → ∀ c i,
      (tracedPasses (regexPasses key before (o.obfuscatePlainMappings text))
        (mark (o.obfuscatePlainMappings text)))[j]? = some (c, some i) →
      ¬Survives (tracedPasses (regexPasses key o.regexEntries (o.obfuscatePlainMappings text))
        (mark (o.obfuscatePlainMappings text))) i

def markedMatch (text : Text) (m : Nat × Nat) : MarkedText := ((mark text).drop m.1).take m.2

def valueRule (key : Key) (entry : RegexEntry) (value : Text) : Rule (Char × Option Nat) :=
  markRule (literalRule [⟨value, entryReplacement key entry value⟩])

/-- The replacement of a value cuts a match: it finds it whole, and leaves a part of it. -/
structure CutsMatch (key : Key) (entry : RegexEntry) (text : Text) (earlier : List Text)
    (value : Text)
    (m : Nat × Nat) : Prop where
  whole : markedMatch text m <:+: rewriteAll (earlier.map (valueRule key entry)) (mark text)
  taken : ∃ x ∈ markedMatch text m,
    x ∉ rewrite (valueRule key entry value)
      (rewriteAll (earlier.map (valueRule key entry)) (mark text))
  left : ∃ x ∈ markedMatch text m,
    x ∈ rewrite (valueRule key entry value)
      (rewriteAll (earlier.map (valueRule key entry)) (mark text))

/-- The text that an entry searches, and the positions that its characters have in `text`. -/
def searched (key : Key) (before : List RegexEntry) (text : Text) : MarkedText :=
  tracedPasses (regexPasses key before text) (mark text)

/-- What an earlier value leaves of a match that it cuts is replaced by later values, or by later
entries. -/
def CutMatchesGo (key : Key) (entries : List RegexEntry) (text : Text) : Prop :=
  ∀ before entry after, entries = before ++ entry :: after →
    ∀ m ∈ entry.regex.matches ((searched key before text).map Prod.fst), ∀ earlier value later,
      entry.regex.matchValues ((searched key before text).map Prod.fst) =
        earlier ++ value :: later →
      CutsMatch key entry ((searched key before text).map Prod.fst) earlier value m →
        ∀ j, m.1 ≤ j → j < m.1 + m.2 → ∀ c i, (searched key before text)[j]? = some (c, some i) →
          ¬Survives (tracedPasses (regexPasses key entries text) (mark text)) i

theorem map_fst_tracedPasses (text : MarkedText) :
    (tracedPasses passes text).map Prod.fst = runPasses passes (text.map Prod.fst) :=
  map_rewriteAll (fun mappings => markRule_lifts (literalRule mappings)) passes text

theorem tracedPasses_append (later : List (List Mapping)) (text : MarkedText) :
    tracedPasses (passes ++ later) text = tracedPasses later (tracedPasses passes text) := by
  rw [tracedPasses, rewriteAll, map_append, foldl_append]
  rfl

variable {passes : List (List Mapping)} {i length start : Nat} {text : Text}
    {mappings : List Mapping} {m : Mapping}

theorem insertsNew_of_mem :
    ∀ rule ∈ passes.map fun mappings => markRule (literalRule mappings),
      InsertsNew (fun x => x.2.isSome) rule := by
  intro rule hrule
  obtain ⟨mappings, -, rfl⟩ := mem_map.1 hrule
  exact markRule_insertsNew _

theorem filter_tracedPasses_sublist (passes : List (List Mapping)) (text : MarkedText) :
    ((tracedPasses passes text).filter fun x => x.2.isSome).Sublist
      (text.filter fun x => x.2.isSome) :=
  filter_rewriteAll_sublist insertsNew_of_mem text

theorem Survives.of_append {later : List (List Mapping)} {text : MarkedText}
    (h : Survives (tracedPasses (passes ++ later) text) i) :
    Survives (tracedPasses passes text) i := by
  rw [tracedPasses_append] at h
  obtain ⟨x, hx, hi⟩ := mem_map.1 h
  have hsome : x.2.isSome = true := by rw [hi]; rfl
  have hkept := (filter_tracedPasses_sublist later (tracedPasses passes text)).subset
    (mem_filter.2 ⟨hx, hsome⟩)
  exact mem_map.2 ⟨x, (mem_filter.1 hkept).1, hi⟩

theorem filter_mark (text : Text) : ((mark text).filter fun x => x.2.isSome) = mark text := by
  rw [filter_eq_self]
  intro x hx
  obtain ⟨y, -, rfl⟩ := mem_map.1 hx
  rfl

theorem substitutes_runPasses (passes : List (List Mapping)) (text : Text) :
    Substitutes text (runPasses passes text) (tracedPasses passes (mark text)) := by
  refine ⟨?_, ?_⟩
  · rw [map_fst_tracedPasses, map_fst_mark]
  · have hsublist := filter_tracedPasses_sublist passes (mark text)
    rwa [filter_mark] at hsublist

theorem mem_mark_of_survives {traced : MarkedText}
    (hkept : (traced.filter fun x => x.2.isSome).Sublist (mark text)) (h : Survives traced i) :
    ∃ c, (c, some i) ∈ traced ∧ (mark text)[i]? = some (c, some i) := by
  obtain ⟨⟨c, mark⟩, hx, rfl⟩ := mem_map.1 h
  refine ⟨c, hx, ?_⟩
  have hmem := hkept.subset (mem_filter.2 ⟨hx, rfl⟩)
  obtain ⟨j, hj⟩ := mem_iff_getElem?.1 hmem
  have hmark := getElem?_mark text j
  rw [hj] at hmark
  obtain ⟨d, hd, heq⟩ := Option.map_eq_some_iff.1 hmark.symm
  obtain ⟨-, hji⟩ := Prod.mk.inj heq
  obtain rfl := Option.some.inj hji
  exact hj

theorem mark_split :
    mark text = (mark text).take start ++
      (((mark text).drop start).take length ++ (mark text).drop (start + length)) := by
  rw [← drop_drop, take_append_drop, take_append_drop]

theorem mem_mark_part {x : Char × Option Nat} (h : x ∈ ((mark text).drop start).take length) :
    ∃ i, x.2 = some i ∧ start ≤ i ∧ i < start + length := by
  obtain ⟨k, hk⟩ := mem_iff_getElem?.1 h
  rw [getElem?_take] at hk
  split at hk
  · next hlt =>
    rw [getElem?_drop, getElem?_mark] at hk
    obtain ⟨c, -, rfl⟩ := Option.map_eq_some_iff.1 hk
    exact ⟨start + k, rfl, by omega, by omega⟩
  · cases hk

theorem map_fst_mark_part (text : Text) (start length : Nat) :
    (((mark text).drop start).take length).map Prod.fst = (text.drop start).take length := by
  rw [map_take, map_drop, map_fst_mark]

/-- A run of passes meets each occurrence of a secret that one of them replaces. -/
theorem tracedPasses_meets (hne : ∀ mappings ∈ passes, ∀ m ∈ mappings, m.secret ≠ [])
    (hmappings : mappings ∈ passes) (hm : m ∈ mappings)
    (hstart : m.secret <+: text.drop start) :
    ∃ i, start ≤ i ∧ i < start + m.secret.length ∧
      ¬Survives (tracedPasses passes (mark text)) i := by
  obtain ⟨occ, hocc⟩ : ∃ occ, occ = ((mark text).drop start).take m.secret.length := ⟨_, rfl⟩
  have herased : occ.map Prod.fst = m.secret := by
    rw [hocc, map_fst_mark_part]
    exact (prefix_iff_eq_take.1 hstart).symm
  have hoccNe : occ ≠ [] := by
    rintro rfl
    exact hne mappings hmappings m hm herased.symm
  have horiginal : ∀ x ∈ occ, x.2.isSome = true := by
    intro x hx
    rw [hocc] at hx
    obtain ⟨i, hi, -⟩ := mem_mark_part hx
    rw [hi]
    rfl
  have hpart : occ <:+: mark text := by
    refine ⟨(mark text).take start, (mark text).drop (start + m.secret.length), ?_⟩
    rw [hocc, append_assoc]
    exact mark_split.symm
  have hcatches : Catches (markRule (literalRule mappings)) occ := by
    refine (markRule_lifts _).catches ?_
    rw [herased]
    exact literalRule_catches (hne mappings hmappings) hm
  obtain ⟨x, hx, hgone⟩ := rewriteAll_removes insertsNew_of_mem hoccNe
    ((nodup_mark text).filter _) horiginal hpart
    ⟨_, mem_map.2 ⟨mappings, hmappings, rfl⟩, hcatches⟩
  have hxmem : x ∈ mark text := hpart.subset hx
  rw [hocc] at hx
  obtain ⟨i, hi, hge, hlt⟩ := mem_mark_part hx
  refine ⟨i, hge, hlt, fun hsurvives => hgone ?_⟩
  obtain ⟨c, hc, hat⟩ := mem_mark_of_survives (substitutes_runPasses passes text).kept hsurvives
  obtain ⟨j, hj⟩ := mem_iff_getElem?.1 hxmem
  have hmark := getElem?_mark text j
  rw [hj] at hmark
  obtain ⟨d, hd, heq⟩ := Option.map_eq_some_iff.1 hmark.symm
  have hji : j = i := by
    rw [← heq] at hi
    exact Option.some.inj hi
  rw [hji, hat] at hj
  rw [← Option.some.inj hj]
  exact hc

section Entry

variable {key : Key} {entry : RegexEntry} {text : Text} {m : Nat × Nat}

variable {x : Char × Option Nat} {j : Nat}

theorem original_of_mem_markedMatch (h : x ∈ markedMatch text m) : x.2.isSome = true := by
  obtain ⟨i, hi, -⟩ := mem_mark_part h
  rw [hi]
  rfl

theorem markedMatch_isInfix : markedMatch text m <:+: mark text := by
  refine ⟨(mark text).take m.1, (mark text).drop (m.1 + m.2), ?_⟩
  rw [append_assoc]
  exact mark_split.symm

theorem markedMatch_ne_nil (hm : m ∈ entry.regex.matches text) : markedMatch text m ≠ [] := by
  obtain ⟨hpos, hle⟩ := mem_successiveMatches hm
  refine ne_nil_of_length_pos ?_
  rw [markedMatch, length_take, length_drop, length_mark]
  omega

theorem mem_markedMatch {c : Char} (hat : (mark text)[j]? = some (c, some j))
    (hstart : m.1 ≤ j) (hend : j < m.1 + m.2) : (c, some j) ∈ markedMatch text m := by
  refine mem_iff_getElem?.2 ⟨j - m.1, ?_⟩
  rw [markedMatch, getElem?_take_of_lt (by omega), getElem?_drop, Nat.add_sub_cancel' hstart, hat]

theorem valueRule_insertsNew (value : Text) :
    InsertsNew (fun x => x.2.isSome) (valueRule key entry value) := markRule_insertsNew _

theorem not_mem_rewriteAll_values {values : List Text} {current : MarkedText}
    (hx : x.2.isSome = true)
    (hgone : x ∉ current) : x ∉ rewriteAll (values.map (valueRule key entry)) current := by
  intro hmem
  have hrules : ∀ rule ∈ values.map (valueRule key entry),
      InsertsNew (fun x => x.2.isSome) rule := by
    intro rule hrule
    obtain ⟨v, -, rfl⟩ := mem_map.1 hrule
    exact valueRule_insertsNew v
  have hkept := (filter_rewriteAll_sublist hrules _).subset (mem_filter.2 ⟨hmem, hx⟩)
  exact hgone (mem_filter.1 hkept).1

theorem rewriteAll_removes_or_cuts (hm : m ∈ entry.regex.matches text) {values : List Text}
    {current : MarkedText} (hnodup : (current.filter fun x => x.2.isSome).Nodup)
    (hpart : markedMatch text m <:+: current) (hvalue : (text.drop m.1).take m.2 ∈ values) :
    (∀ y ∈ markedMatch text m, y ∉ rewriteAll (values.map (valueRule key entry)) current) ∨
      ∃ earlier value later, values = earlier ++ value :: later ∧
        markedMatch text m <:+: rewriteAll (earlier.map (valueRule key entry)) current ∧
        (∃ x ∈ markedMatch text m, x ∉ rewrite (valueRule key entry value)
          (rewriteAll (earlier.map (valueRule key entry)) current)) ∧
        ∃ x ∈ markedMatch text m, x ∈ rewrite (valueRule key entry value)
          (rewriteAll (earlier.map (valueRule key entry)) current) := by
  induction values generalizing current with
  | nil => cases hvalue
  | cons value values ih =>
    have hsublist := filter_rewrite_sublist (@valueRule_insertsNew key entry value) current
    rcases rewrite_intact_or_removes (@valueRule_insertsNew key entry value) (markedMatch_ne_nil hm)
      hnodup (fun x hx => original_of_mem_markedMatch hx) hpart with ⟨hintact, hnot⟩ | htaken
    · have hother : (text.drop m.1).take m.2 ∈ values := by
        rcases mem_cons.1 hvalue with rfl | hmem
        · refine absurd ((markRule_lifts _).catches ?_) hnot
          rw [markedMatch, map_fst_mark_part]
          refine literalRule_catches ?_ (mem_singleton_self _)
          intro m' hm'
          obtain rfl := mem_singleton.1 hm'
          exact matchValue_ne_nil (mem_matchValues.2 ⟨m, hm, rfl⟩)
        · exact hmem
      rcases ih (hnodup.sublist hsublist) hintact hother with hgone | ⟨earlier, v, later, rfl, hcut⟩
      · exact .inl hgone
      · exact .inr ⟨value :: earlier, v, later, rfl, hcut⟩
    · by_cases hleft : ∃ y ∈ markedMatch text m, y ∈ rewrite (valueRule key entry value) current
      · exact .inr ⟨[], value, values, rfl, hpart, htaken, hleft⟩
      · left
        intro y hy
        have hgone : y ∉ rewrite (valueRule key entry value) current :=
          fun hmem => hleft ⟨y, hy, hmem⟩
        have hlater :=
          @not_mem_rewriteAll_values key entry y values _ (original_of_mem_markedMatch hy) hgone
        exact hlater

theorem entry_removes_or_cuts (key : Key) (hm : m ∈ entry.regex.matches text) :
    (∀ j, m.1 ≤ j → j < m.1 + m.2 →
      ¬Survives (tracedPasses (entryPasses key entry text) (mark text)) j) ∨
      ∃ earlier value later, entry.regex.matchValues text = earlier ++ value :: later ∧
        CutsMatch key entry text earlier value m := by
  rcases @rewriteAll_removes_or_cuts key entry text m hm _ _ ((nodup_mark text).filter _)
      markedMatch_isInfix
    (mem_matchValues.2 ⟨m, hm, rfl⟩) with hgone | ⟨earlier, value, later, hvalues, hwhole,
      htaken, hleft⟩
  · refine .inl fun j hstart hend hsurvives => ?_
    obtain ⟨c, hc, hat⟩ := mem_mark_of_survives
      (substitutes_runPasses (entryPasses key entry text) text).kept hsurvives
    have hrules : tracedPasses (entryPasses key entry text) (mark text) =
        rewriteAll ((entry.regex.matchValues text).map (valueRule key entry)) (mark text) := by
      rw [tracedPasses, entryPasses, map_map]
      rfl
    rw [hrules] at hc
    exact hgone _ (mem_markedMatch hat hstart hend) hc
  · exact .inr ⟨earlier, value, later, hvalues, hwhole, htaken, hleft⟩

end Entry

section Marks

variable {base : Text} {current : MarkedText}

variable {i j : Nat} {c : Char}

theorem position_inj (hkept : (current.filter fun x => x.2.isSome).Sublist (mark base)) {j' : Nat}
    {c' : Char} (hj : current[j]? = some (c, some i)) (hj' : current[j']? = some (c', some i)) :
    j = j' := by
  have hpositions : (mark base).Pairwise fun x y => x.2 ≠ y.2 := by
    rw [← pairwise_map, map_snd_mark]
    exact nodup_range.map fun _ _ h => Option.some.inj h
  have hpairwise := pairwise_filter.1 (hpositions.sublist hkept)
  have hordered : ∀ {k k' : Nat} {d d' : Char}, current[k]? = some (d, some i) →
      current[k']? = some (d', some i) → ¬k < k' := by
    intro k k' d d' hk hk' hlt
    obtain ⟨hkl, hkeq⟩ := List.getElem?_eq_some_iff.1 hk
    obtain ⟨hkl', hkeq'⟩ := List.getElem?_eq_some_iff.1 hk'
    have hne := pairwise_iff_getElem.1 hpairwise k k' hkl hkl' hlt
    rw [hkeq, hkeq'] at hne
    exact hne rfl rfl rfl
  have hnot := hordered hj hj'
  have hnot' := hordered hj' hj
  omega

def readMark (current : MarkedText) (x : Char × Option Nat) : Char × Option Nat :=
  (x.1, x.2.bind fun j => current[j]?.bind Prod.snd)

theorem map_readMark (current : MarkedText) :
    (mark (current.map Prod.fst)).map (readMark current) = current := by
  refine ext_getElem? fun j => ?_
  rw [getElem?_map, getElem?_mark, getElem?_map]
  cases hj : current[j]? with
  | none => rfl
  | some x => simp [readMark, hj]

theorem survives_position (hkept : (current.filter fun x => x.2.isSome).Sublist (mark base))
    {passes : List (List Mapping)} (hj : current[j]? = some (c, some i))
    (h : Survives (tracedPasses passes current) i) :
    Survives (tracedPasses passes (mark (current.map Prod.fst))) j := by
  have hmap : (tracedPasses passes (mark (current.map Prod.fst))).map (readMark current) =
      tracedPasses passes current := by
    have hlifts := map_rewriteAll (fun mappings => markRule_lifts_marks (literalRule mappings)
      (g := readMark current) (fun _ => rfl) (fun _ => rfl)) passes (mark (current.map Prod.fst))
    rwa [map_readMark] at hlifts
  rw [← hmap] at h
  obtain ⟨y, hy, hi⟩ := mem_map.1 h
  obtain ⟨⟨d, position⟩, hx, rfl⟩ := mem_map.1 hy
  obtain ⟨k, rfl, hk⟩ := Option.bind_eq_some_iff.1 hi
  obtain ⟨⟨e, position⟩, hk, rfl⟩ := Option.bind_eq_some_iff.1 hk
  obtain rfl := position_inj hkept hj hk
  exact mem_map.2 ⟨_, hx, rfl⟩

end Marks

theorem regexPasses_append (key : Key) (before after : List RegexEntry) (text : Text) :
    regexPasses key (before ++ after) text = regexPasses key before text ++
      regexPasses key after (runPasses (regexPasses key before text) text) := by
  induction before generalizing text with
  | nil => rfl
  | cons entry before ih =>
    rw [cons_append, regexPasses, ih, regexPasses, append_assoc, runPasses_append]

variable {o : SecretObfuscator}

theorem mem_plainPasses (h : m ∈ o.mappings) : ∃ mappings ∈ o.plainPasses, m ∈ mappings := by
  unfold plainPasses
  split
  · exact ⟨[m], mem_map.2 ⟨m, h, rfl⟩, mem_singleton_self m⟩
  · exact ⟨o.mappings, mem_singleton_self _, h⟩

theorem mem_mappings_of_mem_plainPasses (h : mappings ∈ o.plainPasses) (hm : m ∈ mappings) :
    m ∈ o.mappings := by
  unfold plainPasses at h
  split at h
  · obtain ⟨m', hm', rfl⟩ := mem_map.1 h
    obtain rfl := mem_singleton.1 hm
    exact hm'
  · obtain rfl := mem_singleton.1 h
    exact hm

theorem secret_ne_of_mem_passes {key : Key} (hwf : o.WellFormed key)
    : ∀ mappings ∈ o.passes key text, ∀ m ∈ mappings, m.secret ≠ [] := by
  have hregex : ∀ (entries : List RegexEntry) (text : Text),
      ∀ mappings ∈ regexPasses key entries text, ∀ m ∈ mappings, m.secret ≠ [] := by
    intro entries
    induction entries with
    | nil => exact fun _ _ hmappings => (not_mem_nil hmappings).elim
    | cons entry entries ih =>
      intro text mappings hmappings m hm
      rcases mem_append.1 hmappings with hentry | hlater
      · obtain ⟨value, hvalue, rfl⟩ := mem_map.1 hentry
        obtain rfl := mem_singleton.1 hm
        exact matchValue_ne_nil hvalue
      · exact ih _ mappings hlater m hm
  intro mappings hmappings m hm
  rcases mem_append.1 hmappings with hplain | hentries
  · exact hwf.secret_ne m (mem_mappings_of_mem_plainPasses hplain hm)
  · exact hregex _ _ mappings hentries m hm

theorem map_fst_searched (key : Key) (before : List RegexEntry) (text : Text) :
    (searched key before text).map Prod.fst = runPasses (regexPasses key before text) text := by
  rw [searched, map_fst_tracedPasses, map_fst_mark]

/-- The regular expression `[a-z]+`. -/
def lowercaseWords : Pattern where
  exec text lastIndex :=
    let start := lastIndex + ((text.drop lastIndex).takeWhile fun c => !c.isLower).length
    let length := ((text.drop start).takeWhile Char.isLower).length
    if length = 0 then none else some (start, length)
  start_ge := by
    intro text lastIndex start length h
    simp only at h
    split at h
    · cases h
    · obtain ⟨rfl, -⟩ := Prod.mk.inj (Option.some.inj h)
      exact Nat.le_add_right _ _
  end_le := by
    intro text lastIndex start length h
    simp only at h
    split at h
    · cases h
    · next hpos =>
      obtain ⟨rfl, rfl⟩ := Prod.mk.inj (Option.some.inj h)
      have hle := ( takeWhile_prefix Char.isLower (l := text.drop (lastIndex +
        ((text.drop lastIndex).takeWhile fun c => !c.isLower).length))).length_le
      rw [length_drop] at hle
      omega

def constantKey : Key where
  tag _ := List.replicate 22 'A'
  tag_length _ := rfl
  tag_chars _ c hc := by
    rw [eq_of_mem_replicate hc]
    rfl
  generateDeterministicReplacement := id

end Vibrato.Secrets

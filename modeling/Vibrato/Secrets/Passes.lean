import Vibrato.Secrets.Obfuscator
import Vibrato.Lib.RewriteCompose

/-! A call of `obfuscate` as a run of passes, each of which replaces some secrets. -/

namespace Vibrato.Secrets

open Lib List

section LiteralRule

variable {mappings : List Mapping}

variable {inserted rest : Text}

theorem literalRule_eq_some {n : Nat} (h : literalRule mappings rest = some (n, inserted)) :
    ∃ m ∈ mappings, m.secret <+: rest ∧ n = m.secret.length ∧ inserted = m.replacement := by
  rw [literalRule, Option.map_eq_some_iff] at h
  obtain ⟨m, hfind, heq⟩ := h
  obtain ⟨rfl, rfl⟩ := Prod.mk.inj heq
  have hstarts := find?_some hfind
  rw [ isPrefixOf_iff_prefix] at hstarts
  exact ⟨m, mem_of_find?_eq_some hfind, hstarts, rfl, rfl⟩

theorem literalRule_eq_none (h : ∀ m ∈ mappings, ¬m.secret <+: rest) :
    literalRule mappings rest = none := by
  cases hrule : literalRule mappings rest with
  | none => rfl
  | some found =>
    obtain ⟨m, hm, hstarts, -⟩ := literalRule_eq_some hrule
    exact absurd hstarts (h m hm)

theorem literalRule_bounded : Bounded (literalRule mappings) := by
  intro rest n inserted h
  obtain ⟨m, -, hstarts, rfl, -⟩ := literalRule_eq_some h
  exact hstarts.length_le

theorem literalRule_catches (hne : ∀ m ∈ mappings, m.secret ≠ []) {m : Mapping}
    (hm : m ∈ mappings) :
    Catches (literalRule mappings) m.secret := by
  intro rest
  cases hrule : literalRule mappings (m.secret ++ rest) with
  | none =>
    rw [literalRule, Option.map_eq_none_iff, find?_eq_none] at hrule
    have hstarts : m.secret.isPrefixOf (m.secret ++ rest) = true := by
      rw [ isPrefixOf_iff_prefix]
      exact prefix_append _ _
    exact absurd hstarts (hrule m hm)
  | some found =>
    obtain ⟨n, inserted⟩ := found
    obtain ⟨m', hm', -, rfl, -⟩ := literalRule_eq_some hrule
    have hpos := length_pos_of_ne_nil (hne m' hm')
    exact ⟨m'.secret.length - 1, inserted, by rw [Nat.sub_add_cancel hpos]⟩

/-- A part of the value is a part of the inserted text, or the value contains all of it. -/
def Overlap (value inserted : Text) : Prop :=
  value <:+: inserted ∨ inserted <:+: value ∨
    ∃ part, part ≠ [] ∧ (part <+: value ∧ part <:+ inserted ∨ part <:+ value ∧ part <+: inserted)

theorem literalRule_ignores (h : ∀ m ∈ mappings, ¬Overlap m.secret inserted) :
    Ignores (literalRule mappings) inserted := by
  refine ⟨fun part rest hne hpart => ?_, fun run rest n i hne hrule => ?_⟩
  · refine literalRule_eq_none fun m hm hstarts => h m hm ?_
    rcases prefix_or_prefix_of_prefix hstarts (prefix_append part rest) with hin | hout
    · exact .inl (hin.isInfix.trans hpart.isInfix)
    · exact .inr (.inr ⟨part, hne, .inl ⟨hout, hpart⟩⟩)
  · obtain ⟨m, hm, hstarts, rfl, -⟩ := literalRule_eq_some hrule
    by_contra hlong
    obtain ⟨later, hlater⟩ : run <+: m.secret :=
      prefix_of_prefix_length_le (prefix_append _ _) hstarts (by omega)
    have hlaterNe : later ≠ [] := by
      rintro rfl
      rw [← hlater, append_nil] at hlong
      exact hlong (Nat.le_refl _)
    rw [← hlater, prefix_append_right_inj] at hstarts
    refine h m hm ?_
    rcases prefix_or_prefix_of_prefix hstarts (prefix_append inserted rest) with hin | hout
    · exact .inr (.inr ⟨later, hlaterNe, .inr ⟨⟨run, hlater⟩, hin⟩⟩)
    · exact .inr (.inl (hout.isInfix.trans ⟨run, [], by rw [append_nil, hlater]⟩))

theorem replaceAll_eq_rewrite {search : Text} (hne : search ≠ []) (text replacement : Text) :
    replaceAll text search replacement = rewrite (literalRule [⟨search, replacement⟩]) text := by
  unfold replaceAll
  split
  · next habsent =>
    rw [rewrite_eq_self]
    intro rest hrest _
    refine literalRule_eq_none fun m hm hstarts => ?_
    obtain rfl := mem_singleton.1 hm
    rcases habsent with hempty | habsent
    · exact hne hempty
    · exact habsent (hstarts.isInfix.trans hrest.isInfix)
  · rfl

end LiteralRule

variable {regex : Pattern} {text value : Text} {fuel lastIndex : Nat}

theorem mem_successiveMatches {m : Nat × Nat}
    (h : m ∈ successiveMatches regex text fuel lastIndex) : 0 < m.2 ∧ m.1 + m.2 ≤ text.length := by
  induction fuel generalizing lastIndex with
  | zero => cases h
  | succ fuel ih =>
    rw [successiveMatches] at h
    split at h
    · cases h
    · exact ih h
    · next start n hexec =>
      rcases mem_cons.1 h with rfl | hmem
      · exact ⟨Nat.succ_pos n, regex.end_le hexec⟩
      · exact ih hmem

theorem mem_matchValues :
    value ∈ regex.matchValues text ↔ ∃ m ∈ regex.matches text,
      (text.drop m.1).take m.2 = value := by
  rw [Pattern.matchValues, mem_eraseDups, mem_map]

theorem matchValue_ne_nil (h : value ∈ regex.matchValues text) : value ≠ [] := by
  obtain ⟨m, hm, rfl⟩ := mem_matchValues.1 h
  obtain ⟨hpos, hend⟩ := mem_successiveMatches hm
  have hlength : ((text.drop m.1).take m.2).length = m.2 := by
    rw [length_take, length_drop]
    omega
  intro hnil
  rw [hnil] at hlength
  simp only [length_nil] at hlength
  omega

def runPasses (passes : List (List Mapping)) (text : Text) : Text :=
  rewriteAll (passes.map literalRule) text

theorem runPasses_append (passes later : List (List Mapping)) (text : Text) :
    runPasses (passes ++ later) text = runPasses later (runPasses passes text) := by
  rw [runPasses, rewriteAll, map_append, foldl_append]
  rfl

namespace SecretObfuscator

def plainPasses (o : SecretObfuscator) : List (List Mapping) :=
  if o.useSequentialPlainReplacement then o.mappings.map ([·]) else [o.mappings]

def entryPasses (key : Key) (entry : RegexEntry) (text : Text) : List (List Mapping) :=
  (entry.regex.matchValues text).map fun value => [⟨value, entryReplacement key entry value⟩]

def regexPasses (key : Key) : List RegexEntry → Text → List (List Mapping)
  | [], _ => []
  | entry :: entries, text =>
    entryPasses key entry text ++ regexPasses key entries
      (runPasses (entryPasses key entry text) text)

def passes (key : Key) (o : SecretObfuscator) (text : Text) : List (List Mapping) :=
  o.plainPasses ++ regexPasses key o.regexEntries (runPasses o.plainPasses text)

/-- No secret is empty, and the obfuscate-mode secrets are those that placeholders stand for. -/
structure Collected (key : Key) (o : SecretObfuscator) : Prop where
  secret_ne : ∀ m ∈ o.mappings, m.secret ≠ []
  placeholder : ∀ m ∈ o.sortedObfuscateMappings, m.replacement = key.buildPlaceholder m.secret ∧
    (m.replacement, m.secret) ∈ o.deobfuscateMap
  restored : ∀ e ∈ o.deobfuscateMap, e.1 = key.buildPlaceholder e.2 ∧
    ∃ m ∈ o.sortedObfuscateMappings, m.secret = e.2

structure WellFormed (key : Key) (o : SecretObfuscator) : Prop extends Collected key o where
  hasAny : o.hasAny = false → o.mappings = [] ∧ o.regexEntries = []

variable {key : Key} {o : SecretObfuscator}

theorem rewrite_nil_mappings (text : Text) : rewrite (literalRule []) text = text :=
  rewrite_eq_self fun _ _ _ => rfl

theorem obfuscatePlainMappings_eq (hne : ∀ m ∈ o.mappings, m.secret ≠ []) (text : Text) :
    o.obfuscatePlainMappings text = runPasses o.plainPasses text := by
  have hsequential : ∀ (ms : List Mapping), (∀ m ∈ ms, m.secret ≠ []) → ∀ text,
      ms.foldl (fun result m => replaceAll result m.secret m.replacement) text =
        runPasses (ms.map ([·])) text := by
    intro ms
    induction ms with
    | nil => exact fun _ _ => rfl
    | cons m ms ih =>
      intro hms text
      rw [foldl_cons, replaceAll_eq_rewrite (hms m mem_cons_self),
        ih fun m' hm' => hms m' (mem_cons_of_mem _ hm')]
      rfl
  unfold obfuscatePlainMappings plainPasses
  split
  · exact hsequential o.mappings hne text
  split
  · next hnone =>
    rw [hnone]
    exact (rewrite_nil_mappings text).symm
  · rfl

theorem processEntry_text (entry : RegexEntry) (st : SecretObfuscator × Text) :
    (processEntry key st entry).2 = runPasses (entryPasses key entry st.2) st.2 := by
  have hvalues : ∀ (values : List Text), (∀ value ∈ values, value ≠ []) →
      ∀ st : SecretObfuscator × Text, (values.foldl (replaceMatch key entry) st).2 =
        runPasses (values.map fun value => [⟨value, entryReplacement key entry value⟩]) st.2 := by
    intro values
    induction values with
    | nil => exact fun _ _ => rfl
    | cons value values ih =>
      intro hvalues st
      rw [foldl_cons, ih fun v hv => hvalues v (mem_cons_of_mem _ hv), replaceMatch,
        replaceAll_eq_rewrite (hvalues value mem_cons_self)]
      rfl
  exact hvalues _ (fun value hvalue => matchValue_ne_nil hvalue) st

theorem processEntries_text (entries : List RegexEntry) (st : SecretObfuscator × Text) :
    (entries.foldl (processEntry key) st).2 = runPasses (regexPasses key entries st.2) st.2 := by
  induction entries generalizing st with
  | nil => rfl
  | cons entry entries ih =>
    rw [foldl_cons, ih, processEntry_text, regexPasses, runPasses_append]

theorem obfuscate_text (hwf : o.WellFormed key) (text : Text) :
    (o.obfuscate key text).2 = runPasses (o.passes key text) text := by
  unfold obfuscate
  split
  · rw [processEntries_text, obfuscatePlainMappings_eq hwf.secret_ne, passes, runPasses_append]
  · next hnone =>
    obtain ⟨hmappings, hentries⟩ := hwf.hasAny (Bool.eq_false_iff.2 hnone)
    have hplain : runPasses o.plainPasses text = text := by
      rw [← obfuscatePlainMappings_eq hwf.secret_ne]
      unfold obfuscatePlainMappings
      have hsequential : o.useSequentialPlainReplacement = false := by
        rw [useSequentialPlainReplacement, hmappings]
        rfl
      rw [hsequential, hmappings]
      rfl
    rw [passes, runPasses_append, hplain, hentries]
    rfl

variable {m m' : Mapping} {secret : Text} {mappings : List Mapping} {P : SecretObfuscator → Prop}

theorem mem_setMapping (h : m' ∈ setMapping mappings m) : m' = m ∨ m' ∈ mappings := by
  unfold setMapping at h
  split at h
  · obtain ⟨x, hx, rfl⟩ := mem_map.1 h
    split
    · exact .inl rfl
    · exact .inr hx
  · rcases mem_append.1 h with hold | hnew
    · exact .inr hold
    · exact .inl (mem_singleton.1 hnew)

theorem exists_mem_setMapping (mappings : List Mapping) (m : Mapping)
    (h : secret = m.secret ∨ ∃ x ∈ mappings, x.secret = secret) :
    ∃ x ∈ setMapping mappings m, x.secret = secret := by
  unfold setMapping
  split
  · next hany =>
    have hold : ∃ x ∈ mappings, x.secret = secret := by
      rcases h with rfl | hold
      · simpa using hany
      · exact hold
    obtain ⟨x, hx, rfl⟩ := hold
    refine ⟨_, mem_map_of_mem hx, ?_⟩
    split
    · next heq => exact heq.symm
    · rfl
  · rcases h with rfl | ⟨x, hx, rfl⟩
    · exact ⟨m, mem_append_right _ (mem_singleton_self m), rfl⟩
    · exact ⟨x, mem_append_left _ hx, rfl⟩

theorem mem_sortMappings : m ∈ sortMappings mappings ↔ m ∈ mappings :=
  (perm_insertionSort _ mappings).mem_iff

theorem mem_insertSortedObfuscateMapping :
    m' ∈ insertSortedObfuscateMapping mappings m ↔ m' = m ∨ m' ∈ mappings := by
  unfold insertSortedObfuscateMapping
  generalize insertIndex mappings m.size mappings.length 0 mappings.length = lo
  rw [mem_append, mem_cons, or_left_comm, ← mem_append, take_append_drop]

theorem obfuscate_state (hdiscover : ∀ o value, value ≠ [] → P o → P (o.discover key value))
    (h : P o) (text : Text) :
    P (o.obfuscate key text).1 := by
  have hvalues : ∀ (entry : RegexEntry) (values : List Text), (∀ value ∈ values, value ≠ []) →
      ∀ st : SecretObfuscator × Text, P st.1 → P (values.foldl (replaceMatch key entry) st).1 := by
    intro entry values
    induction values with
    | nil => exact fun _ _ hst => hst
    | cons value values ih =>
      intro hvalues st hst
      refine ih (fun v hv => hvalues v (mem_cons_of_mem _ hv)) _ ?_
      rw [replaceMatch]
      split
      · exact hdiscover _ value (hvalues value mem_cons_self) hst
      · exact hst
  have hentries : ∀ (entries : List RegexEntry) (st : SecretObfuscator × Text), P st.1 →
      P (entries.foldl (processEntry key) st).1 := by
    intro entries
    induction entries with
    | nil => exact fun _ hst => hst
    | cons entry entries ih =>
      intro st hst
      exact ih _ (hvalues entry _ (fun value hvalue => matchValue_ne_nil hvalue) st hst)
  unfold obfuscate
  split
  · exact hentries _ _ h
  · exact h

theorem obfuscateAll_state (hdiscover : ∀ o value, value ≠ [] → P o → P (o.discover key value))
    (h : P o)
    (texts : List Text) : P (o.obfuscateAll key texts) := by
  induction texts generalizing o with
  | nil => exact h
  | cons text texts ih => exact ih (obfuscate_state hdiscover h text)

theorem Collected.discover (h : Collected key o) {value : Text} (hvalue : value ≠ []) :
    Collected key (o.discover key value) := by
  unfold SecretObfuscator.discover
  split
  · exact h
  · refine ⟨fun m hm => ?_, fun m hm => ?_, fun e he => ?_⟩
    · rcases mem_append.1 hm with hm | hm
      · exact h.secret_ne m (mem_append_left _ hm)
      · rcases mem_insertSortedObfuscateMapping.1 hm with rfl | hm
        · exact hvalue
        · exact h.secret_ne m (mem_append_right _ hm)
    · rcases mem_insertSortedObfuscateMapping.1 hm with rfl | hm
      · exact ⟨rfl, mem_cons_self⟩
      · exact ⟨(h.placeholder m hm).1, mem_cons_of_mem _ (h.placeholder m hm).2⟩
    · rcases mem_cons.1 he with rfl | he
      · exact ⟨rfl, _, mem_insertSortedObfuscateMapping.2 (.inl rfl), rfl⟩
      · obtain ⟨heq, m, hm, hsecret⟩ := h.restored e he
        exact ⟨heq, m, mem_insertSortedObfuscateMapping.2 (.inr hm), hsecret⟩

theorem obfuscate_of_not_hasAny (hany : o.hasAny = false) (text : Text) :
    o.obfuscate key text = (o, text) := by
  rw [SecretObfuscator.obfuscate, hany]
  rfl

theorem obfuscate_hasAny (text : Text) : (o.obfuscate key text).1.hasAny = o.hasAny := by
  refine @obfuscate_state key o (fun o' => o'.hasAny = o.hasAny) (fun o' value _ h => ?_) rfl text
  unfold SecretObfuscator.discover
  split
  · exact h
  · exact h

theorem WellFormed.obfuscate (h : o.WellFormed key) (text : Text) :
    (o.obfuscate key text).1.WellFormed key := by
  refine ⟨?_, fun hnone => ?_⟩
  · exact @obfuscate_state key o (Collected key) (fun _ _ hvalue ho => ho.discover hvalue)
      h.toCollected text
  · rw [obfuscate_hasAny] at hnone
    rw [obfuscate_of_not_hasAny hnone]
    exact h.hasAny hnone

theorem WellFormed.obfuscateAll (h : o.WellFormed key) (texts : List Text) :
    (o.obfuscateAll key texts).WellFormed key := by
  induction texts generalizing o with
  | nil => exact h
  | cons text texts ih => exact ih (h.obfuscate text)

def Knows (o : SecretObfuscator) (secret : Text) : Prop := ∃ m ∈ o.mappings, m.secret = secret

theorem Knows.obfuscateAll (h : o.Knows secret) (texts : List Text) :
    (o.obfuscateAll key texts).Knows secret := by
  refine @obfuscateAll_state key o (fun o => o.Knows secret) ?_ h texts
  intro o value _ hknows
  unfold SecretObfuscator.discover
  split
  · exact hknows
  · obtain ⟨m, hm, hsecret⟩ := hknows
    refine ⟨m, ?_, hsecret⟩
    rcases mem_append.1 hm with hm | hm
    · exact mem_append_left _ hm
    · exact mem_append_right _ (mem_insertSortedObfuscateMapping.2 (.inr hm))

theorem Collected.addEntry (h : Collected key o) (entry : SecretEntry) :
    Collected key (o.addEntry key entry) := by
  match entry with
  | .plain content content_ne .obfuscate _ =>
    refine ⟨fun m hm => ?_, fun m hm => ?_, fun e he => ?_⟩
    · rcases mem_append.1 hm with hm | hm
      · exact h.secret_ne m (mem_append_left _ hm)
      · rcases mem_setMapping hm with rfl | hm
        · exact content_ne
        · exact h.secret_ne m (mem_append_right _ hm)
    · rcases mem_setMapping hm with rfl | hm
      · exact ⟨rfl, mem_cons_self⟩
      · exact ⟨(h.placeholder m hm).1, mem_cons_of_mem _ (h.placeholder m hm).2⟩
    · rcases mem_cons.1 he with rfl | he
      · exact ⟨rfl, exists_mem_setMapping _ _ (.inl rfl)⟩
      · obtain ⟨heq, hknown⟩ := h.restored e he
        exact ⟨heq, exists_mem_setMapping _ _ (.inr hknown)⟩
  | .plain content content_ne .replace replacement =>
    refine ⟨fun m hm => ?_, h.placeholder, h.restored⟩
    rcases mem_append.1 hm with hm | hm
    · rcases mem_setMapping hm with rfl | hm
      · exact content_ne
      · exact h.secret_ne m (mem_append_left _ hm)
    · exact h.secret_ne m (mem_append_right _ hm)
  | .regex (some _) _ _ => exact ⟨h.secret_ne, h.placeholder, h.restored⟩
  | .regex none _ _ => exact h

theorem Knows.addEntry (h : o.Knows secret) (entry : SecretEntry) :
    (o.addEntry key entry).Knows secret := by
  obtain ⟨m, hm, hsecret⟩ := h
  match entry with
  | .plain content _ .obfuscate _ =>
    rcases mem_append.1 hm with hm | hm
    · exact ⟨m, mem_append_left _ hm, hsecret⟩
    · obtain ⟨x, hx, hxs⟩ := exists_mem_setMapping o.sortedObfuscateMappings
        ⟨content, key.buildPlaceholder content⟩ (.inr ⟨m, hm, hsecret⟩)
      exact ⟨x, mem_append_right _ hx, hxs⟩
  | .plain content _ .replace replacement =>
    rcases mem_append.1 hm with hm | hm
    · obtain ⟨x, hx, hxs⟩ := exists_mem_setMapping o.sortedReplaceMappings
        ⟨content, replacement.getD (key.generateDeterministicReplacement content)⟩
        (.inr ⟨m, hm, hsecret⟩)
      exact ⟨x, mem_append_left _ hx, hxs⟩
    · exact ⟨m, mem_append_right _ hm, hsecret⟩
  | .regex (some _) _ _ => exact ⟨m, hm, hsecret⟩
  | .regex none _ _ => exact ⟨m, hm, hsecret⟩

theorem addEntry_knows (content : Text) (hne : content ≠ []) (mode : SecretMode)
    (replacement : Option Text) :
    (o.addEntry key (.plain content hne mode replacement)).Knows content := by
  cases mode with
  | obfuscate =>
    obtain ⟨x, hx, hxs⟩ := exists_mem_setMapping o.sortedObfuscateMappings
      ⟨content, key.buildPlaceholder content⟩ (.inl rfl)
    exact ⟨x, mem_append_right _ hx, hxs⟩
  | replace =>
    obtain ⟨x, hx, hxs⟩ := exists_mem_setMapping o.sortedReplaceMappings
      ⟨content, replacement.getD (key.generateDeterministicReplacement content)⟩ (.inl rfl)
    exact ⟨x, mem_append_left _ hx, hxs⟩

theorem addEntry_hasAny (entry : SecretEntry) : (o.addEntry key entry).hasAny = o.hasAny := by
  match entry with
  | .plain _ _ .obfuscate _ => rfl
  | .plain _ _ .replace _ => rfl
  | .regex (some _) _ _ => rfl
  | .regex none _ _ => rfl

theorem ofEntries_wellFormed (key : Key) (entries : List SecretEntry) :
    (ofEntries key entries).WellFormed key := by
  have hfold : ∀ (entries : List SecretEntry) (o : SecretObfuscator), Collected key o →
      Collected key (entries.foldl (addEntry key) o) ∧
        (entries.foldl (addEntry key) o).hasAny = o.hasAny := by
    intro entries
    induction entries with
    | nil => exact fun o h => ⟨h, rfl⟩
    | cons entry entries ih =>
      intro o h
      obtain ⟨hcollected, hany⟩ := ih _ (h.addEntry entry)
      exact ⟨hcollected, hany.trans (addEntry_hasAny entry)⟩
  obtain ⟨hcollected, hany⟩ := hfold entries ⟨[], [], [], [], !entries.isEmpty⟩
    ⟨fun m hm => (not_mem_nil hm).elim, fun m hm => (not_mem_nil hm).elim,
      fun e he => (not_mem_nil he).elim⟩
  refine ⟨⟨fun m hm => ?_, fun m hm => ?_, fun e he => ?_⟩, fun hnone => ?_⟩
  · refine hcollected.secret_ne m ?_
    rcases mem_append.1 hm with hm | hm
    · exact mem_append_left _ (mem_sortMappings.1 hm)
    · exact mem_append_right _ (mem_sortMappings.1 hm)
  · exact hcollected.placeholder m (mem_sortMappings.1 hm)
  · obtain ⟨heq, m, hm, hsecret⟩ := hcollected.restored e he
    exact ⟨heq, m, mem_sortMappings.2 hm, hsecret⟩
  · cases entries with
    | nil => exact ⟨rfl, rfl⟩
    | cons entry entries =>
      have htrue : (ofEntries key (entry :: entries)).hasAny = true := hany
      rw [htrue] at hnone
      cases hnone

theorem ofEntries_knows {entries : List SecretEntry} {content : Text} {hne : content ≠ []}
    {mode : SecretMode} {replacement : Option Text}
    (h : SecretEntry.plain content hne mode replacement ∈ entries) :
    (ofEntries key entries).Knows content := by
  have hlater : ∀ (entries : List SecretEntry) (o : SecretObfuscator), o.Knows content →
      (entries.foldl (addEntry key) o).Knows content := by
    intro entries
    induction entries with
    | nil => exact fun o hknows => hknows
    | cons entry entries ih => exact fun o hknows => ih _ (hknows.addEntry entry)
  obtain ⟨before, after, rfl⟩ := append_of_mem h
  have hknows := hlater after _ (@addEntry_knows key
    (before.foldl (addEntry key) ⟨[], [], [], [],
      !(before ++ SecretEntry.plain content hne mode replacement :: after).isEmpty⟩)
    content hne mode replacement)
  rw [← foldl_cons, ← foldl_append] at hknows
  obtain ⟨m, hm, hsecret⟩ := hknows
  refine ⟨m, ?_, hsecret⟩
  rcases mem_append.1 hm with hm | hm
  · exact mem_append_left _ (mem_sortMappings.2 hm)
  · exact mem_append_right _ (mem_sortMappings.2 hm)

end SecretObfuscator

end Vibrato.Secrets

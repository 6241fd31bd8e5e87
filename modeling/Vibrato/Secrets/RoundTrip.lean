import Vibrato.Secrets.Coverage

namespace Vibrato.Secrets

open Lib SecretObfuscator List Seg Prod

def SecretEntry.mode : SecretEntry → SecretMode
  | .plain _ _ mode _ => mode
  | .regex _ mode _ => mode

def HasNoPlaceholder (text : Text) : Prop := ∀ rest, rest <:+ text → matchPlaceholder rest = none

/-- The text is restored, and each pass replaces characters of the text only. -/
structure RoundTrips (key : Key) (o : SecretObfuscator) (text : Text) : Prop where
  restores : (o.obfuscate key text).1.deobfuscate (o.obfuscate key text).2 = text
  notNested : ∀ before mappings after, o.passes key text = before ++ mappings :: after →
    ∀ seg ∈ segment (markRule (literalRule mappings)) 0 (tracedPasses before (mark text)),
      ∀ x ∈ seg.region, x.2.isSome = true

/-- The values that a pass searches do not overlap what earlier passes have inserted. -/
def Separate : List (List Mapping) → List Text → Text → Prop
  | [], _, _ => True
  | mappings :: passes, inserted, text =>
    (∀ m ∈ mappings, ∀ placeholder ∈ inserted, ¬Overlap m.secret placeholder) ∧
      Separate passes
        (inserted ++ (mappings.filter (·.secret <:+: text)).map Mapping.replacement)
        (rewrite (literalRule mappings) text)

def insertedTexts : List (List Mapping) → Text → List Text
  | [], _ => []
  | mappings :: passes, text =>
    (mappings.filter (·.secret <:+: text)).map Mapping.replacement ++
      insertedTexts passes (rewrite (literalRule mappings) text)

def IsOpenPlaceholder (text : Text) : Prop :=
  ∃ tag, text = "#VIB1_".toList ++ tag ∧ tag.length = 22 ∧ ∀ c ∈ tag, isTagChar c = true

def NotAfterOpenPlaceholder (passes : List (List Mapping)) (text : Text) : Prop :=
  ∀ before opened after, text = before ++ (opened ++ after) → IsOpenPlaceholder opened →
    ∀ mappings ∈ passes, ∀ m ∈ mappings, ¬m.secret <+: after

section Compose

variable {passes : List (List Mapping)} {segs : List (Seg (Char × Option Nat))}

variable (mappings : List Mapping)

def passRule : Rule (Char × Option Nat) := markRule (literalRule mappings)

theorem passRule_bounded : Bounded (passRule mappings) :=
  (markRule_lifts _).bounded literalRule_bounded

theorem map_passRule_bounded (passes : List (List Mapping)) :
    ∀ rule ∈ passes.map passRule, Bounded rule := by
  intro rule hrule
  obtain ⟨mappings, -, rfl⟩ := mem_map.1 hrule
  exact passRule_bounded mappings

variable {mappings : List Mapping} {done : List (List Mapping)} {inserted : List Text} {text : Text}

theorem passRule_eq_some {region rest inserted : MarkedText}
    (h : passRule mappings (region ++ rest) = some (region.length, inserted)) :
    ∃ m ∈ mappings, region.map fst = m.secret ∧ inserted.map fst = m.replacement := by
  have hrule := (markRule_lifts _).eq_some h
  obtain ⟨m, hm, hstarts, hlength, hinserted⟩ := literalRule_eq_some hrule
  rw [map_append, prefix_iff_eq_take, ← hlength, ← length_map fst, take_left] at hstarts
  exact ⟨m, hm, hstarts.symm, hinserted⟩

def CutsFrom (passes : List (List Mapping)) (inserted : List Text)
    (segs : List (Seg (Char × Option Nat))) : Prop :=
  ∀ r i, Seg.cut r i ∈ segs → i.map fst ∈ inserted ∧ ∃ mappings ∈ passes, ∃ m ∈ mappings,
    r.map fst = m.secret ∧ i.map fst = m.replacement

theorem CutsFrom.refine (hcuts : CutsFrom done inserted segs)
    (hignores : ∀ r i, Seg.cut r i ∈ segs → Ignores (passRule mappings) i) :
    CutsFrom (done ++ [mappings])
      (inserted ++ (mappings.filter (·.secret <:+: (outputs segs).map fst)).map Mapping.replacement)
      (Lib.refine (passRule mappings) 0 segs) := by
  intro r i hmem
  rcases cut_of_mem_refine (passRule_bounded mappings) hignores hmem with hold | hnew
  · obtain ⟨hmem, ms, hms, hspec⟩ := hcuts r i hold
    exact ⟨mem_append_left _ hmem, ms, mem_append_left _ hms, hspec⟩
  · obtain ⟨rest, hsuffix, hrule, -⟩ := hnew
    obtain ⟨m, hm, hregion, hreplacement⟩ := passRule_eq_some hrule
    have hoccurs : m.secret <:+: (outputs segs).map fst := by
      rw [← hregion]
      refine List.IsInfix.trans ?_ (hsuffix.map fst).isInfix
      rw [map_append]
      exact (prefix_append _ _).isInfix
    refine ⟨mem_append_right _ (mem_map.2 ⟨m, ?_, hreplacement.symm⟩), mappings,
      mem_append_right _ (mem_singleton_self _), m, hm, hregion, hreplacement⟩
    exact mem_filter.2 ⟨hm, decide_eq_true hoccurs⟩

theorem unseen_of_separate (htext : (outputs segs).map fst = text)
    (hseparate : Separate passes inserted text)
    (hcuts : CutsFrom done inserted segs) :
    Unseen (passes.map passRule) segs ∧
      CutsFrom (done ++ passes) (inserted ++ insertedTexts passes text)
        (refineAll (passes.map passRule) segs) := by
  induction passes generalizing segs done inserted text with
  | nil =>
    rw [insertedTexts, append_nil, append_nil]
    exact ⟨trivial, hcuts⟩
  | cons mappings passes ih =>
    have hignores : ∀ r i, Seg.cut r i ∈ segs → Ignores (passRule mappings) i := by
      intro r i hmem
      refine (markRule_lifts _).ignores (literalRule_ignores fun m hm => ?_)
      exact hseparate.1 m hm _ (hcuts r i hmem).1
    have hrest : (outputs (Lib.refine (passRule mappings) 0 segs)).map fst =
        rewrite (literalRule mappings) text := by
      rw [(refine_spec (passRule_bounded mappings) hignores (Nat.zero_le _)).2, ← htext]
      exact (markRule_lifts _).map_segment 0 _
    have hnew := hcuts.refine hignores
    rw [htext] at hnew
    obtain ⟨hunseen, hfinal⟩ := ih hrest hseparate.2 hnew
    rw [append_assoc, append_assoc] at hfinal
    exact ⟨⟨hignores, hunseen⟩, hfinal⟩

theorem exists_split (hseparate : Separate passes [] text) :
    ∃ segs : List (Seg (Char × Option Nat)), Unseen (passes.map passRule) ((mark text).map keep) ∧
      sources segs = mark text ∧ outputs segs = tracedPasses passes (mark text) ∧
      CutsFrom passes (insertedTexts passes text) segs := by
  have hkeeps : CutsFrom [] [] ((mark text).map keep) := by
    intro r i hmem
    obtain ⟨x, -, heq⟩ := mem_map.1 hmem
    cases heq
  have htext : (outputs ((mark text).map keep)).map fst = text := by
    rw [outputs_map_keep, map_fst_mark]
  obtain ⟨hunseen, hcuts⟩ := unseen_of_separate htext hseparate hkeeps
  obtain ⟨hsources, houtputs⟩ := refineAll_spec (map_passRule_bounded passes) hunseen
  refine ⟨_, hunseen, hsources.trans (sources_map_keep _), ?_, hcuts⟩
  rw [houtputs, outputs_map_keep]
  rfl

theorem notNested_of_separate (hseparate : Separate passes [] text)
    {before : List (List Mapping)} {after : List (List Mapping)}
    (hpasses : passes = before ++ mappings :: after) :
    ∀ seg ∈ segment (passRule mappings) 0 (tracedPasses before (mark text)), ∀ x ∈ seg.region,
      x.2.isSome = true := by
  obtain ⟨-, hunseen, -⟩ := exists_split hseparate
  rw [hpasses, map_append] at hunseen
  obtain ⟨hbefore, hignores⟩ := hunseen.of_append
  obtain ⟨hsources, houtputs⟩ := refineAll_spec (map_passRule_bounded before) hbefore
  intro seg hseg x hx
  rw [outputs_map_keep] at houtputs
  have htraced : outputs (refineAll (before.map passRule) ((mark text).map keep)) =
      tracedPasses before (mark text) := houtputs
  rw [← htraced] at hseg
  have hkeep :=
    (region_of_segment_outputs (passRule_bounded mappings) hignores (Nat.zero_le _) hseg).2
    x hx
  have hsource : x ∈ sources (refineAll (before.map passRule) ((mark text).map keep)) :=
    mem_flatMap.2 ⟨_, hkeep, mem_singleton_self x⟩
  rw [hsources, sources_map_keep] at hsource
  obtain ⟨y, -, rfl⟩ := mem_map.1 hsource
  rfl

end Compose

section Placeholders

structure IsBody (body : Text) : Prop where
  open_ : IsOpenPlaceholder ('#' :: body)
  hash : '#' ∉ body

theorem isBody_of_tag {tag : Text} (hlength : tag.length = 22)
    (hchars : ∀ c ∈ tag, isTagChar c = true) : IsBody ("VIB1_".toList ++ tag) := by
  refine ⟨⟨tag, rfl, hlength, hchars⟩, fun hmem => ?_⟩
  rcases mem_append.1 hmem with hmem | hmem
  · exact absurd hmem (by decide)
  · exact absurd (hchars _ hmem) (by decide)

theorem matchPlaceholder_body {body : Text} (h : IsBody body) (rest : Text) :
    matchPlaceholder ('#' :: (body ++ '#' :: rest)) = some ('#' :: (body ++ ['#'])) := by
  obtain ⟨tag, heq, hlength, hchars⟩ := h.open_
  have hbody : body = "VIB1_".toList ++ tag := (List.cons.inj heq).2
  have hdrop : ('#' :: (body ++ '#' :: rest)).drop 6 = tag ++ '#' :: rest := by
    rw [hbody]
    rfl
  have htake : (('#' :: (body ++ '#' :: rest)).drop 6).take 22 = tag := by
    rw [hdrop, ← hlength, take_left]
  have hsize : ('#' :: body).length = 28 := by
    rw [hbody, length_cons, length_append, hlength]
    rfl
  have hlast : ('#' :: (body ++ '#' :: rest))[28]? = some '#' := by
    rw [← cons_append, ← hsize, getElem?_append_right (Nat.le_refl _), Nat.sub_self]
    rfl
  have hwhole : ('#' :: (body ++ '#' :: rest)).take 29 = '#' :: (body ++ ['#']) := by
    have hsplit : '#' :: (body ++ '#' :: rest) = ('#' :: (body ++ ['#'])) ++ rest := by simp
    have hcount : ('#' :: (body ++ ['#'])).length = 29 := by
      rw [length_cons] at hsize
      simp only [length_cons, length_append, length_nil]
      omega
    rw [hsplit, ← hcount, take_left]
  unfold matchPlaceholder
  rw [htake, hlast, hwhole, if_pos]
  refine ⟨?_, hlength, all_eq_true.2 hchars, rfl⟩
  rw [hbody]
  rfl

theorem matchPlaceholder_eq_some {l found : Text} (h : matchPlaceholder l = some found) :
    ∃ body rest, IsBody body ∧ l = '#' :: (body ++ '#' :: rest) := by
  unfold matchPlaceholder at h
  simp only at h
  split at h
  · next hmatch =>
    obtain ⟨hhead, hlength, hchars, hlast⟩ := hmatch
    obtain ⟨hbound, hchar⟩ := List.getElem?_eq_some_iff.1 hlast
    have hrest : l.drop 28 = '#' :: l.drop 29 := by
      rw [drop_eq_getElem_cons hbound, hchar]
    refine ⟨"VIB1_".toList ++ (l.drop 6).take 22, l.drop 29,
      isBody_of_tag hlength (all_eq_true.1 hchars), ?_⟩
    have hdrop : l.drop 28 = (l.drop 6).drop 22 := by rw [drop_drop]
    have hwhole : "#VIB1_".toList ++ ((l.drop 6).take 22 ++ (l.drop 6).drop 22) = l := by
      rw [take_append_drop, ← hhead, take_append_drop]
    rw [← hdrop, hrest] at hwhole
    exact hwhole.symm
  · cases h

theorem Key.exists_body (key : Key) (secret : Text) :
    ∃ body, IsBody body ∧ key.buildPlaceholder secret = '#' :: (body ++ ['#']) :=
  ⟨_, isBody_of_tag (key.tag_length secret) (key.tag_chars secret), rfl⟩

end Placeholders

/-- A split of the text whose regions are restored from what is inserted for them. -/
structure Restorable (deobfuscateMap : List (Text × Text)) (segs : List (Seg Char)) : Prop where
  body : ∀ region inserted, Seg.cut region inserted ∈ segs →
    ∃ body, IsBody body ∧ inserted = '#' :: (body ++ ['#'])
  lookup : ∀ region inserted, Seg.cut region inserted ∈ segs →
    deobfuscateMap.lookup inserted = some region

variable {deobfuscateMap : List (Text × Text)} {text : Text} {segs : List (Seg Char)}

theorem Restorable.tail {seg : Seg Char}
    (h : Restorable deobfuscateMap (seg :: segs)) : Restorable deobfuscateMap segs :=
  ⟨fun r i hmem => h.body r i (mem_cons_of_mem _ hmem),
    fun r i hmem => h.lookup r i (mem_cons_of_mem _ hmem)⟩

theorem matchPlaceholder_keep (hclean : HasNoPlaceholder text) {a : Char}
    (hsuffix : a :: sources segs <:+ text)
    (hbody : ∀ r i, Seg.cut r i ∈ segs → ∃ body, IsBody body ∧ i = '#' :: (body ++ ['#']))
    (hopen : ∀ before opened after, text = before ++ (opened ++ after) → IsOpenPlaceholder opened →
      ∀ r i, Seg.cut r i ∈ segs → ¬r <+: after) : matchPlaceholder (a :: outputs segs) = none := by
  cases hfound : matchPlaceholder (a :: outputs segs) with
  | none => rfl
  | some found =>
    exfalso
    obtain ⟨body, later, hisBody, heq⟩ := matchPlaceholder_eq_some hfound
    obtain ⟨rfl, houtputs⟩ := List.cons.inj heq
    have hplaceholder : ∀ rest, ¬ '#' :: (body ++ '#' :: rest) <:+ text := by
      intro rest hrest
      have hnone := hclean _ hrest
      rw [matchPlaceholder_body hisBody] at hnone
      cases hnone
    rcases keepRun_cases segs with ⟨hsources, hrun⟩ | ⟨r, i, after, hcut, hsources, hcase⟩
    · rw [← hsources, hrun, houtputs] at hsuffix
      exact hplaceholder later hsuffix
    · obtain ⟨other, -, rfl⟩ := hbody r i hcut
      rw [hcase] at houtputs
      -- The body has no hash sign, so it ends at the next placeholder or before.
      have hstarts : ∃ more, keepRun segs = body ++ more := by
        rcases append_eq_append_iff.1 houtputs with ⟨x, hx, hy⟩ | ⟨x, hx, -⟩
        · cases x with
          | nil => exact ⟨[], by rw [hx, append_nil, append_nil]⟩
          | cons c x =>
            obtain ⟨rfl, -⟩ := List.cons.inj hy
            exact absurd (hx ▸ mem_append_right _ mem_cons_self) hisBody.hash
        · exact ⟨x, hx⟩
      obtain ⟨more, hmore⟩ := hstarts
      rw [hmore, append_assoc, append_cancel_left_eq] at houtputs
      rw [hsources, hmore, append_assoc] at hsuffix
      cases more with
      | nil =>
        obtain ⟨before, hbefore⟩ := hsuffix
        refine hopen before ('#' :: body) (r ++ sources after) ?_ hisBody.open_ r _ hcut
          (prefix_append _ _)
        rw [← hbefore]
        rfl
      | cons c more =>
        obtain ⟨rfl, -⟩ := List.cons.inj houtputs
        exact hplaceholder _ hsuffix

theorem restore_split (hclean : HasNoPlaceholder text) (hsuffix : sources segs <:+ text)
    (hrestorable : Restorable deobfuscateMap segs)
    (hopen : ∀ before opened after, text = before ++ (opened ++ after) → IsOpenPlaceholder opened →
      ∀ r i, Seg.cut r i ∈ segs → ¬r <+: after) :
    rewrite (placeholderRule deobfuscateMap) (outputs segs) = sources segs := by
  induction segs with
  | nil => rfl
  | cons seg segs ih =>
    have hrest := ih ((suffix_append _ _).trans hsuffix) hrestorable.tail
      fun before opened after htext hopened r i hmem =>
        hopen before opened after htext hopened r i (mem_cons_of_mem _ hmem)
    cases seg with
    | keep a =>
      have hnone := matchPlaceholder_keep hclean hsuffix hrestorable.tail.body
        fun before opened after htext hopened r i hmem =>
          hopen before opened after htext hopened r i (mem_cons_of_mem _ hmem)
      rw [rewrite, outputs_cons, output, singleton_append, Lib.segment, placeholderRule, hnone]
      exact congrArg (a :: ·) hrest
    | cut region inserted =>
      obtain ⟨body, hbody, rfl⟩ := hrestorable.body region inserted mem_cons_self
      have hlookup := hrestorable.lookup _ _ mem_cons_self
      have hskip : ∀ part : Text, ∀ l, outputs (Lib.segment (placeholderRule deobfuscateMap)
          part.length (part ++ l)) =
            outputs (Lib.segment (placeholderRule deobfuscateMap) 0 l) := by
        intro part l
        induction part with
        | nil => rfl
        | cons c part ihpart => exact ihpart
      have hsplit :
          '#' :: (body ++ ['#']) ++ outputs segs = '#' :: (body ++ '#' :: outputs segs) := by simp
      rw [rewrite, outputs_cons, output, hsplit, Lib.segment, placeholderRule,
        matchPlaceholder_body hbody]
      simp only [Option.map_some, hlookup, Option.getD_some, length_cons, outputs_cons, output,
        sources_cons, source]
      have hrewrite := hskip (body ++ ['#']) (outputs segs)
      rw [append_assoc] at hrewrite
      exact congrArg (region ++ ·) (hrewrite.trans hrest)

section Learns

variable {key : Key} {o : SecretObfuscator}

structure OnlyObfuscates (o : SecretObfuscator) : Prop where
  replace : o.sortedReplaceMappings = []
  regex : ∀ entry ∈ o.regexEntries, entry.mode = .obfuscate

theorem onlyObfuscates_ofEntries {entries : List SecretEntry}
    (h : ∀ entry ∈ entries, entry.mode = .obfuscate) : OnlyObfuscates (ofEntries key entries) := by
  have hfold : ∀ (entries : List SecretEntry) (o : SecretObfuscator),
      (∀ entry ∈ entries, entry.mode = .obfuscate) → OnlyObfuscates o →
        OnlyObfuscates (entries.foldl (addEntry key) o) := by
    intro entries
    induction entries with
    | nil => exact fun o _ ho => ho
    | cons entry entries ih =>
      intro o hentries ho
      refine ih _ (fun e he => hentries e (mem_cons_of_mem _ he)) ?_
      have hmode := hentries entry mem_cons_self
      match entry with
      | .plain _ _ .obfuscate _ => exact ⟨ho.replace, ho.regex⟩
      | .plain _ _ .replace _ => cases hmode
      | .regex (some _) mode _ =>
        refine ⟨ho.replace, fun e he => ?_⟩
        rcases mem_append.1 he with he | he
        · exact ho.regex e he
        · rw [mem_singleton.1 he]
          exact hmode
      | .regex none _ _ => exact ho
  have hcollected := hfold entries ⟨[], [], [], [], !entries.isEmpty⟩ h
    ⟨rfl, fun e he => (not_mem_nil he).elim⟩
  refine ⟨?_, hcollected.regex⟩
  show sortMappings _ = []
  rw [hcollected.replace]
  rfl

theorem OnlyObfuscates.obfuscateAll (h : OnlyObfuscates o) (texts : List Text) :
    OnlyObfuscates (o.obfuscateAll key texts) := by
  refine @obfuscateAll_state key o OnlyObfuscates (fun o value _ ho => ?_) h texts
  unfold discover
  split
  · exact ho
  · exact ⟨ho.replace, ho.regex⟩

variable {e : Text × Text} {st : SecretObfuscator × Text}

theorem mem_deobfuscateMap_discover (h : e ∈ o.deobfuscateMap) (value : Text) :
    e ∈ (o.discover key value).deobfuscateMap := by
  unfold discover
  split
  · exact h
  · exact mem_cons_of_mem _ h

theorem discover_learns (h : Collected key o) (value : Text) :
    (key.buildPlaceholder value, value) ∈ (o.discover key value).deobfuscateMap := by
  unfold discover
  split
  · next hknown =>
    rw [any_eq_true] at hknown
    obtain ⟨m, hm, heq⟩ := hknown
    obtain rfl := of_decide_eq_true heq
    obtain ⟨hplaceholder, hmem⟩ := h.placeholder m hm
    rw [hplaceholder] at hmem
    exact hmem
  · exact mem_cons_self

theorem mem_deobfuscateMap_processEntries (h : e ∈ st.1.deobfuscateMap)
    (entries : List RegexEntry) :
    e ∈ (entries.foldl (processEntry key) st).1.deobfuscateMap := by
  have hvalues : ∀ (entry : RegexEntry) (values : List Text) (st : SecretObfuscator × Text),
      e ∈ st.1.deobfuscateMap →
        e ∈ (values.foldl (replaceMatch key entry) st).1.deobfuscateMap := by
    intro entry values
    induction values with
    | nil => exact fun _ hst => hst
    | cons value values ih =>
      intro st hst
      refine ih _ ?_
      rw [replaceMatch]
      split
      · exact mem_deobfuscateMap_discover hst value
      · exact hst
  induction entries generalizing st with
  | nil => exact h
  | cons entry entries ih => exact ih (hvalues entry _ st h)

theorem processEntry_learns {entry : RegexEntry} (hmode : entry.mode = .obfuscate)
    (h : Collected key st.1) :
    Collected key (processEntry key st entry).1 ∧
      ∀ value ∈ entry.regex.matchValues st.2,
        (key.buildPlaceholder value, value) ∈ (processEntry key st entry).1.deobfuscateMap := by
  have hfold : ∀ (values : List Text), (∀ value ∈ values, value ≠ []) →
      ∀ (st : SecretObfuscator × Text), Collected key st.1 →
        Collected key (values.foldl (replaceMatch key entry) st).1 ∧
          (∀ e ∈ st.1.deobfuscateMap,
            e ∈ (values.foldl (replaceMatch key entry) st).1.deobfuscateMap) ∧
          ∀ value ∈ values, (key.buildPlaceholder value, value) ∈
            (values.foldl (replaceMatch key entry) st).1.deobfuscateMap := by
    intro values
    induction values with
    | nil => exact fun _ st hst => ⟨hst, fun _ he => he, fun _ hv => (not_mem_nil hv).elim⟩
    | cons value values ih =>
      intro hne st hst
      have hstep : (replaceMatch key entry st value).1 = st.1.discover key value := by
        rw [replaceMatch, if_pos hmode]
      obtain ⟨hcollected, hkeeps, hlearns⟩ := ih (fun v hv => hne v (mem_cons_of_mem _ hv))
        (replaceMatch key entry st value)
        (by rw [hstep]; exact hst.discover (hne value mem_cons_self))
      rw [hstep] at hkeeps
      refine ⟨hcollected, fun e he => hkeeps e (mem_deobfuscateMap_discover he value),
        fun v hv => ?_⟩
      rcases mem_cons.1 hv with rfl | hv
      · exact hkeeps _ (discover_learns hst v)
      · exact hlearns v hv
  obtain ⟨hcollected, -, hlearns⟩ := hfold (entry.regex.matchValues st.2)
    (fun value hvalue => matchValue_ne_nil hvalue) st h
  exact ⟨hcollected, hlearns⟩

theorem processEntries_learns {entries : List RegexEntry}
    (hmode : ∀ entry ∈ entries, entry.mode = .obfuscate) {st : SecretObfuscator × Text}
    (h : Collected key st.1) : ∀ mappings ∈ regexPasses key entries st.2, ∀ m ∈ mappings,
      m.replacement = key.buildPlaceholder m.secret ∧
        (m.replacement, m.secret) ∈ (entries.foldl (processEntry key) st).1.deobfuscateMap := by
  induction entries generalizing st with
  | nil => exact fun _ hmappings => (not_mem_nil hmappings).elim
  | cons entry entries ih =>
    obtain ⟨hcollected, hlearns⟩ := processEntry_learns (hmode entry mem_cons_self) h
    intro mappings hmappings m hm
    rcases mem_append.1 hmappings with hentry | hlater
    · obtain ⟨value, hvalue, rfl⟩ := mem_map.1 hentry
      obtain rfl := mem_singleton.1 hm
      have hreplacement : entryReplacement key entry value = key.buildPlaceholder value := by
        rw [entryReplacement, hmode entry mem_cons_self]
      refine ⟨hreplacement, ?_⟩
      rw [hreplacement]
      exact mem_deobfuscateMap_processEntries (hlearns value hvalue) entries
    · rw [← processEntry_text] at hlater
      exact ih (fun e he => hmode e (mem_cons_of_mem _ he)) hcollected mappings hlater m hm

/-- What a call inserts, it can restore. -/
theorem passes_learned (hwf : o.WellFormed key) (honly : OnlyObfuscates o) (text : Text) :
    ∀ mappings ∈ o.passes key text, ∀ m ∈ mappings, m.replacement = key.buildPlaceholder m.secret ∧
      (m.replacement, m.secret) ∈ (o.obfuscate key text).1.deobfuscateMap := by
  have hplain : ∀ m ∈ o.mappings, m.replacement = key.buildPlaceholder m.secret ∧
      (m.replacement, m.secret) ∈ o.deobfuscateMap := by
    intro m hm
    rw [mappings, honly.replace] at hm
    exact hwf.placeholder m hm
  intro mappings hmappings m hm
  cases hany : o.hasAny with
  | false =>
    obtain ⟨hnone, hentries⟩ := hwf.hasAny hany
    rcases mem_append.1 hmappings with hfirst | hregex
    · have hmem := mem_mappings_of_mem_plainPasses hfirst hm
      rw [hnone] at hmem
      cases hmem
    · rw [hentries] at hregex
      cases hregex
  | true =>
    have hcall : o.obfuscate key text =
        o.regexEntries.foldl (processEntry key) (o, o.obfuscatePlainMappings text) := by
      rw [obfuscate, if_pos hany]
    rw [hcall]
    rcases mem_append.1 hmappings with hfirst | hregex
    · obtain ⟨heq, hmem⟩ := hplain m (mem_mappings_of_mem_plainPasses hfirst hm)
      exact ⟨heq, mem_deobfuscateMap_processEntries hmem _⟩
    · rw [← obfuscatePlainMappings_eq hwf.secret_ne] at hregex
      exact @processEntries_learns key o.regexEntries honly.regex
        (o, o.obfuscatePlainMappings text) hwf.toCollected mappings hregex m hm

end Learns

theorem lookup_eq_some {map : List (Text × Text)} {placeholder secret : Text}
    (hmem : (placeholder, secret) ∈ map)
    (hunique : ∀ e ∈ map, e.1 = placeholder → e.2 = secret) :
    map.lookup placeholder = some secret := by
  induction map with
  | nil => cases hmem
  | cons e map ih =>
    rw [lookup_cons]
    split
    · next heq =>
      rw [hunique e mem_cons_self (eq_of_beq heq).symm]
    · next hne =>
      rcases mem_cons.1 hmem with rfl | hmem
      · rw [beq_self_eq_true] at hne
        cases hne
      · exact ih hmem fun e he => hunique e (mem_cons_of_mem _ he)

theorem Key.tag_eq_of_buildPlaceholder_eq {key : Key} {s s' : Text}
    (h : key.buildPlaceholder s = key.buildPlaceholder s') : key.tag s = key.tag s' := by
  unfold Key.buildPlaceholder at h
  rw [append_cancel_right_eq, append_cancel_left_eq] at h
  exact h

/-- The round trip holds where no replaced value overlaps a placeholder that the call has inserted,
and none follows an open placeholder. -/
theorem obfuscate_roundTrips (key : Key) (entries : List SecretEntry) (earlier : List Text)
    (text : Text) (hmode : ∀ entry ∈ entries, entry.mode = .obfuscate)
    (hclean : HasNoPlaceholder text) :
    let o := (ofEntries key entries).obfuscateAll key earlier
    Set.InjOn key.tag {secret | (o.obfuscate key text).1.Knows secret} →
    Separate (o.passes key text) [] text →
    NotAfterOpenPlaceholder (o.passes key text) text →
    RoundTrips key o text := by
  intro o hinjective hseparate hopen
  have hwf : o.WellFormed key := (ofEntries_wellFormed key entries).obfuscateAll earlier
  have honly : OnlyObfuscates o := (onlyObfuscates_ofEntries hmode).obfuscateAll earlier
  refine ⟨?_, fun before mappings after hpasses => notNested_of_separate hseparate hpasses⟩
  obtain ⟨marked, -, hsources, houtputs, hcuts⟩ := exists_split hseparate
  obtain ⟨segs, hsegs⟩ : ∃ segs, segs = marked.map (Seg.map fst) := ⟨_, rfl⟩
  have hsource : sources segs = text := by
    rw [hsegs, sources_map, hsources, map_fst_mark]
  have houtput : outputs segs = (o.obfuscate key text).2 := by
    rw [hsegs, outputs_map, houtputs, map_fst_tracedPasses, map_fst_mark, obfuscate_text hwf]
  have hreplaced : ∀ r i, Seg.cut r i ∈ segs → ∃ mappings ∈ o.passes key text, ∃ m ∈ mappings,
      r = m.secret ∧ i = m.replacement := by
    intro r i hmem
    rw [hsegs] at hmem
    obtain ⟨seg, hseg, heq⟩ := mem_map.1 hmem
    cases seg with
    | keep a => cases heq
    | cut region inserted =>
      obtain ⟨rfl, rfl⟩ := Seg.cut.inj heq
      exact (hcuts region inserted hseg).2
  have hrestorable : Restorable (o.obfuscate key text).1.deobfuscateMap segs := by
    refine ⟨fun r i hmem => ?_, fun r i hmem => ?_⟩
    · obtain ⟨mappings, hmappings, m, hm, rfl, rfl⟩ := hreplaced r i hmem
      rw [(passes_learned hwf honly text mappings hmappings m hm).1]
      exact key.exists_body m.secret
    · obtain ⟨mappings, hmappings, m, hm, rfl, rfl⟩ := hreplaced r i hmem
      obtain ⟨hplaceholder, hlearned⟩ := passes_learned hwf honly text mappings hmappings m hm
      refine lookup_eq_some hlearned fun e he heq => ?_
      have hknows : ∀ e ∈ (o.obfuscate key text).1.deobfuscateMap,
          (o.obfuscate key text).1.Knows e.2 := by
        intro e he
        obtain ⟨-, m', hm', hsecret⟩ := (hwf.obfuscate text).restored e he
        exact ⟨m', mem_append_right _ hm', hsecret⟩
      rw [((hwf.obfuscate text).restored e he).1, hplaceholder] at heq
      exact hinjective (hknows e he) (hknows _ hlearned) (Key.tag_eq_of_buildPlaceholder_eq heq)
  have hrestore := restore_split hclean (hsource ▸ suffix_refl _) hrestorable
    fun before opened after htext hopened r i hmem => by
      obtain ⟨mappings, hmappings, m, hm, rfl, -⟩ := hreplaced r i hmem
      exact hopen before opened after htext hopened mappings hmappings m hm
  rw [houtput, hsource] at hrestore
  unfold deobfuscate
  split
  · exact hrestore
  · next hskip =>
    cases hany : o.hasAny with
    | false => rw [obfuscate_of_not_hasAny hany]
    | true =>
      rw [obfuscate_hasAny, hany] at hskip
      have hhash : '#' ∉ outputs segs := by
        rw [houtput]
        exact fun hmem => hskip ⟨rfl, hmem⟩
      rcases keepRun_cases segs with ⟨hall, hsame⟩ | ⟨r, i, after, hcut, -, heq⟩
      · rw [← houtput, ← hsame, hall, hsource]
      · obtain ⟨body, -, rfl⟩ := hrestorable.body r i hcut
        rw [heq] at hhash
        exact absurd (mem_append_right _ (mem_append_left _ mem_cons_self)) hhash

def pairKey (first : Text) : Key where
  tag secret := List.replicate 22 (if secret = first then 'A' else 'B')
  tag_length _ := length_replicate
  tag_chars secret c hc := by
    rw [eq_of_mem_replicate hc]
    split
    · rfl
    · rfl
  generateDeterministicReplacement := id

theorem pairKey_injOn {first second : Text} {o : SecretObfuscator}
    (h : ∀ m ∈ o.mappings, m.secret = first ∨ m.secret = second) :
    Set.InjOn (pairKey first).tag {secret | o.Knows secret} := by
  rintro s ⟨m, hm, rfl⟩ s' ⟨m', hm', rfl⟩ heq
  have hchar : (if m.secret = first then 'A' else 'B') = if m'.secret = first then 'A' else 'B' :=
    (replicate_right_inj (by decide)).1 heq
  by_cases hfirst : m.secret = first
  · rw [if_pos hfirst] at hchar
    by_cases hfirst' : m'.secret = first
    · rw [hfirst, hfirst']
    · rw [if_neg hfirst'] at hchar
      exact absurd hchar (by decide)
  · rw [if_neg hfirst] at hchar
    by_cases hfirst' : m'.secret = first
    · rw [if_pos hfirst'] at hchar
      exact absurd hchar (by decide)
    · rw [(h m hm).resolve_left hfirst, (h m' hm').resolve_left hfirst']

theorem hasNoPlaceholder_of_hash {text : Text} (h : '#' ∉ text) : HasNoPlaceholder text := by
  intro rest hrest
  cases hfound : matchPlaceholder rest with
  | none => rfl
  | some found =>
    obtain ⟨body, later, -, rfl⟩ := matchPlaceholder_eq_some hfound
    exact absurd (hrest.subset mem_cons_self) h

theorem not_overlap_of_disjoint {value inserted : Text} (hvalue : value ≠ [])
    (hinserted : inserted ≠ [])
    (hall : value.all (fun c => !inserted.contains c) = true) : ¬Overlap value inserted := by
  have h : ∀ c ∈ value, c ∉ inserted := by simpa using hall
  rintro (hin | hout | ⟨part, hne, ⟨hin, hout⟩ | ⟨hin, hout⟩⟩)
  · obtain ⟨c, hc⟩ := exists_mem_of_ne_nil _ hvalue
    exact h c hc (hin.subset hc)
  · obtain ⟨c, hc⟩ := exists_mem_of_ne_nil _ hinserted
    exact h c (hout.subset hc) hc
  · obtain ⟨c, hc⟩ := exists_mem_of_ne_nil _ hne
    exact h c (hin.subset hc) (hout.subset hc)
  · obtain ⟨c, hc⟩ := exists_mem_of_ne_nil _ hne
    exact h c (hin.subset hc) (hout.subset hc)

theorem obfuscate_roundTrips_words :
    RoundTrips (pairKey "ab".toList)
      (ofEntries (pairKey "ab".toList)
        [.plain "ab".toList (by decide) .obfuscate none,
          .regex (some lowercaseWords) .obfuscate none])
      "ab cd".toList := by
  have hhash : '#' ∉ "ab cd".toList := by decide
  have hpasses : (ofEntries (pairKey "ab".toList)
      [.plain "ab".toList (by decide) .obfuscate none,
        .regex (some lowercaseWords) .obfuscate none]).passes (pairKey "ab".toList) "ab cd".toList =
      [[⟨"ab".toList, (pairKey "ab".toList).buildPlaceholder "ab".toList⟩],
        [⟨"cd".toList, (pairKey "ab".toList).buildPlaceholder "cd".toList⟩]] := by
    decide +kernel
  refine obfuscate_roundTrips (pairKey "ab".toList)
    [.plain "ab".toList (by decide) .obfuscate none, .regex (some lowercaseWords) .obfuscate none]
    [] _ ?_ (hasNoPlaceholder_of_hash hhash) ?_ ?_ ?_
  · intro entry hentry
    rcases mem_pair.1 hentry with rfl | rfl
    · rfl
    · rfl
  · refine @pairKey_injOn _ "cd".toList _ ?_
    decide +kernel
  · refine ⟨fun _ _ p hp => (not_mem_nil hp).elim, fun m hm p hp => ?_, trivial⟩
    obtain rfl := mem_singleton.1 hm
    have hinserted : p = (pairKey "ab".toList).buildPlaceholder "ab".toList := by
      obtain ⟨m, hm, rfl⟩ := mem_map.1 hp
      rw [mem_singleton.1 (mem_filter.1 hm).1]
    rw [hinserted]
    exact not_overlap_of_disjoint (by decide) (by decide +kernel) (by decide +kernel)
  · rintro before opened after htext ⟨tag, rfl, -, -⟩
    refine absurd ?_ hhash
    rw [htext]
    exact mem_append_right _ (mem_append_left _ mem_cons_self)

/-- The secret `VIB` is replaced in the placeholder of the longer secret. -/
theorem obfuscate_nests :
    HasNoPlaceholder "longer".toList ∧
    Set.InjOn (pairKey "longer".toList).tag {secret |
      ((ofEntries (pairKey "longer".toList)
        [.plain "longer".toList (by decide) .obfuscate none,
          .plain "VIB".toList (by decide) .obfuscate none]).obfuscate (pairKey "longer".toList)
        "longer".toList).1.Knows secret} ∧
    ¬RoundTrips (pairKey "longer".toList)
      (ofEntries (pairKey "longer".toList)
        [.plain "longer".toList (by decide) .obfuscate none,
          .plain "VIB".toList (by decide) .obfuscate none])
      "longer".toList := by
  refine ⟨hasNoPlaceholder_of_hash (by decide), @pairKey_injOn _ "VIB".toList _ ?_, fun h => ?_⟩
  · decide +kernel
  · exact absurd h.restores (by decide +kernel)

end Vibrato.Secrets

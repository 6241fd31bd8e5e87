import Vibrato.Hashline.KeepsLines

namespace Vibrato.Hashline

open List

inductive OpHead where
  | insert (cursor : Cursor) (inlineBody : Option Text)
  | replace (start stop : Anchor)

namespace OpHead

def op : OpHead → List Text → Op
  | insert cursor inlineBody, payload => .insert cursor (inlineBody.toList ++ payload)
  | replace start stop, payload => .replace start stop payload

def complete : OpHead → List Text → Bool
  | insert _ inlineBody, payload => inlineBody.toList ++ payload ≠ []
  | replace _ _, _ => true

end OpHead

def readInsert (side : Side) (target : Text) (body : Option Text) : Option OpHead :=
  (parseInsertTarget target 0 side).toOption.map fun cursor =>
    .insert cursor (resolveInlineInsertBody cursor body)

def readHead (line : Text) : Option OpHead :=
  match matchInsertOp HL_OP_INSERT_BEFORE line with
  | some (target, body) => readInsert .before target body
  | none =>
    match matchInsertOp HL_OP_INSERT_AFTER line with
    | some (target, body) => readInsert .after target body
    | none =>
      (matchReplaceOp line).bind fun range =>
        (parseRange range 0).toOption.map fun (start, stop) => .replace start stop

theorem toOption_bind {ε α β : Type} (x : Except ε α) (f : α → Except ε β) :
    (x >>= f).toOption = x.toOption.bind fun a => (f a).toOption := by
  cases x <;> rfl

variable (raw : Text)

theorem parseLid_toOption (n : Nat) : (parseLid raw n).toOption = (parseLid raw 0).toOption := by
  unfold parseLid
  dsimp only
  split
  · split <;> rfl
  · rfl

theorem parseInsertTarget_toOption (n : Nat) (side : Side) :
    (parseInsertTarget raw n side).toOption = (parseInsertTarget raw 0 side).toOption := by
  unfold parseInsertTarget
  split
  · rfl
  split
  · rfl
  rw [toOption_bind, toOption_bind, parseLid_toOption raw n]

theorem parseRange_toOption (n : Nat) :
    (parseRange raw n).toOption = (parseRange raw 0).toOption := by
  unfold parseRange
  split
  · rw [toOption_bind, toOption_bind, parseLid_toOption raw n]
  · next startRaw endRaw _ =>
    split
    · rfl
    rw [toOption_bind, toOption_bind, parseLid_toOption startRaw n]
    congr 1
    funext start
    rw [toOption_bind, toOption_bind, parseLid_toOption endRaw n]
    congr 1
    funext stop
    split
    · rfl
    split <;> rfl
  · rfl

def OpHead.withPayload (head : OpHead) (rest : List Text) : Option (Op × List Text) :=
  let payload := rest.takeWhile (!isPayloadTerminatorLine ·)
  if head.complete payload then
    some (head.op payload, rest.dropWhile (!isPayloadTerminatorLine ·))
  else none

theorem parseInsert_toOption (n : Nat) (side : Side) (target : Text) (body : Option Text)
    (rest : List Text) : (parseInsert n side target body rest).toOption =
      (readInsert side target body).bind (OpHead.withPayload · rest) := by
  unfold parseInsert readInsert
  rw [toOption_bind, parseInsertTarget_toOption, Option.bind_map]
  congr 1
  funext cursor
  have hcomplete : (OpHead.insert cursor (resolveInlineInsertBody cursor body)).complete
      (rest.takeWhile (!isPayloadTerminatorLine ·)) =
        decide ((collectPayload (resolveInlineInsertBody cursor body) rest).1 ≠ []) := rfl
  rw [Function.comp_apply, OpHead.withPayload, hcomplete]
  by_cases hnil : (collectPayload (resolveInlineInsertBody cursor body) rest).1 = []
  · rw [if_neg (by simpa using hnil)]
    dsimp only
    rw [if_pos hnil]
    rfl
  · rw [if_pos (by simpa using hnil)]
    dsimp only
    rw [if_neg hnil]
    rfl

theorem parseOp_toOption (n : Nat) (line : Text) (rest : List Text) :
    (parseOp n line rest).toOption = (readHead line).bind (OpHead.withPayload · rest) := by
  unfold parseOp readHead
  cases hbefore : matchInsertOp HL_OP_INSERT_BEFORE line with
  | some found => exact parseInsert_toOption _ _ _ _ _
  | none =>
    cases hafter : matchInsertOp HL_OP_INSERT_AFTER line with
    | some found => exact parseInsert_toOption _ _ _ _ _
    | none =>
      cases hrange : matchReplaceOp line with
      | some range =>
        rw [toOption_bind, parseRange_toOption, Option.bind_some, Option.bind_map]
        rfl
      | none =>
        dsimp only
        split <;> rfl

variable {line : Text} {c sigil : Char} {head : OpHead} {p : Char → Bool}

theorem parseOp_ok_iff {n : Nat} {rest next : List Text} {op : Op} :
    parseOp n line rest = .ok (op, next) ↔
      ∃ head, readHead line = some head ∧ head.withPayload rest = some (op, next) := by
  have htoOption := parseOp_toOption n line rest
  rw [← Option.bind_eq_some_iff, ← htoOption]
  cases parseOp n line rest with
  | error e => simp [Except.toOption]
  | ok parsed => simp [Except.toOption]

theorem matchInsertOp_head (h : (matchInsertOp sigil line).isSome = true) :
    line.head? = some sigil := by
  cases line with
  | nil => cases h
  | cons c rest =>
    unfold matchInsertOp at h
    dsimp only at h
    split at h
    · next hmatch => rw [hmatch.1, head?_cons]
    · cases h

theorem matchReplaceOp_head (h : (matchReplaceOp line).isSome = true) :
    line.head? = some HL_OP_REPLACE := by
  cases line with
  | nil => cases h
  | cons c rest =>
    unfold matchReplaceOp at h
    dsimp only at h
    split at h
    · next hmatch => rw [hmatch.1, head?_cons]
    · cases h

theorem readHead_sign (h : readHead line = some head) :
    ∃ c rest, line = c :: rest ∧ c ∈ HL_OP_CHARS := by
  have hsign : ∃ c ∈ HL_OP_CHARS, line.head? = some c := by
    unfold readHead at h
    split at h
    · next hbefore =>
      exact ⟨HL_OP_INSERT_BEFORE, by decide, matchInsertOp_head (by rw [hbefore]; rfl)⟩
    split at h
    · next hafter =>
      exact ⟨HL_OP_INSERT_AFTER, by decide, matchInsertOp_head (by rw [hafter]; rfl)⟩
    · obtain ⟨range, hrange, -⟩ := Option.bind_eq_some_iff.1 h
      exact ⟨HL_OP_REPLACE, by decide, matchReplaceOp_head (by rw [hrange]; rfl)⟩
  obtain ⟨c, hc, hhead⟩ := hsign
  cases line with
  | nil => cases hhead
  | cons d rest =>
    cases hhead
    exact ⟨c, rest, rfl, hc⟩

theorem isPayloadTerminatorLine_of_readHead
    (h : readHead line = some head) : isPayloadTerminatorLine line = true := by
  obtain ⟨c, rest, rfl, hc⟩ := readHead_sign h
  unfold isPayloadTerminatorLine
  simp [hc]

theorem not_isSpace_of_opChar (h : c ∈ HL_OP_CHARS) : Text.isSpace c = false := by
  have hall : HL_OP_CHARS.all (!Text.isSpace ·) = true := by decide
  simpa using all_eq_true.1 hall c h

theorem readHead_ne_marker (h : readHead line = some head) :
    Text.isBlank line = false ∧ line ≠ END_PATCH_MARKER ∧ line ≠ ABORT_MARKER ∧
      line ≠ BEGIN_PATCH_MARKER := by
  obtain ⟨c, rest, rfl, hc⟩ := readHead_sign h
  have hmarker : ∀ marker ∈ [END_PATCH_MARKER, ABORT_MARKER, BEGIN_PATCH_MARKER],
      c :: rest ≠ marker := by
    rintro marker hmarker rfl
    have hstar : c = '*' := by
      simp only [mem_cons, not_mem_nil, or_false] at hmarker
      rcases hmarker with heq | heq | heq
      · exact (List.cons.inj heq).1
      · exact (List.cons.inj heq).1
      · exact (List.cons.inj heq).1
    rw [hstar] at hc
    exact absurd hc (by decide)
  refine ⟨?_, hmarker _ (by simp), hmarker _ (by simp), hmarker _ (by simp)⟩
  rw [Text.isBlank, all_cons, not_isSpace_of_opChar hc, Bool.false_and]

theorem takeWhile_concat (hc : p c = false) (s : Text) :
    (s ++ [c]).takeWhile p = s.takeWhile p := by
  induction s with
  | nil => simp [hc]
  | cons d s ih =>
    cases hd : p d with
    | true => rw [cons_append, takeWhile_cons_of_pos hd, takeWhile_cons_of_pos hd, ih]
    | false =>
      rw [cons_append, takeWhile_cons_of_neg (by simp [hd]), takeWhile_cons_of_neg (by simp [hd])]

theorem dropWhile_concat (hc : p c = false) (s : Text) :
    (s ++ [c]).dropWhile p = s.dropWhile p ++ [c] := by
  induction s with
  | nil => simp [hc]
  | cons d s ih =>
    cases hd : p d with
    | true => rw [cons_append, dropWhile_cons_of_pos hd, dropWhile_cons_of_pos hd, ih]
    | false =>
      rw [cons_append, dropWhile_cons_of_neg (by simp [hd]), dropWhile_cons_of_neg (by simp [hd]),
        cons_append]

theorem isSpace_return : Text.isSpace '\r' = true := by decide

variable (s : Text)

theorem isBlank_concat : Text.isBlank (s ++ ['\r']) = Text.isBlank s := by
  rw [Text.isBlank, Text.isBlank, all_append, all_cons, isSpace_return, all_nil, Bool.and_true,
    Bool.and_true]

theorem matchBody_concat : matchBody (s ++ ['\r']) = matchBody s := by
  have hterminator : (!Text.isLineTerminator '\r') = false := by decide
  cases s with
  | nil => rfl
  | cons c rest =>
    by_cases hc : c = '|'
    · subst hc
      have hall := isBlank_concat (rest.dropWhile fun c => !Text.isLineTerminator c)
      unfold Text.isBlank at hall
      rw [cons_append, matchBody, matchBody, takeWhile_concat hterminator,
        dropWhile_concat hterminator, hall]
    · have hbar : ∀ rest, matchBody (c :: rest) =
          if Text.isBlank (c :: rest) then some none else none := by
        intro rest
        unfold matchBody
        split
        · next heq => exact absurd (List.cons.inj heq).1 hc
        · rfl
      rw [cons_append, hbar, hbar, ← cons_append, isBlank_concat]

theorem trimStart_concat : Text.trimStart (s ++ ['\r']) =
    if Text.isBlank s then [] else Text.trimStart s ++ ['\r'] := by
  unfold Text.trimStart
  rw [dropWhile_append]
  have hempty : (s.dropWhile Text.isSpace).isEmpty = Text.isBlank s := by
    rw [Bool.eq_iff_iff, List.isEmpty_iff, dropWhile_eq_nil_iff, Text.isBlank, all_eq_true]
  rw [hempty]
  split
  · rw [dropWhile_cons_of_pos isSpace_return, dropWhile_nil]
  · rfl

theorem trimStart_of_isBlank {s : Text} (h : Text.isBlank s = true) : Text.trimStart s = [] := by
  rw [Text.trimStart, dropWhile_eq_nil_iff]
  exact fun c hc => all_eq_true.1 h c hc

theorem matchInsertOp_concat (hsigil : sigil ≠ '\r') (line : Text) :
    matchInsertOp sigil (line ++ ['\r']) = matchInsertOp sigil line := by
  cases line with
  | nil => exact if_neg fun h => hsigil h.1.symm
  | cons c rest =>
    rw [cons_append]
    unfold matchInsertOp
    dsimp only
    rw [trimStart_concat]
    split
    · next hblank => rw [trimStart_of_isBlank hblank]
    · have hstop : ('\r' != HL_BODY_SEP && !Text.isSpace '\r') = false := by decide
      rw [takeWhile_concat hstop, dropWhile_concat hstop, matchBody_concat]

variable (line)

theorem matchReplaceOp_concat :
    matchReplaceOp (line ++ ['\r']) = matchReplaceOp line := by
  cases line with
  | nil => decide
  | cons c rest =>
    rw [cons_append]
    unfold matchReplaceOp
    dsimp only
    rw [trimStart_concat]
    split
    · next hblank => rw [trimStart_of_isBlank hblank]
    · have hstop : (!Text.isSpace '\r') = false := by decide
      have hall := isBlank_concat ((Text.trimStart rest).dropWhile fun c => !Text.isSpace c)
      unfold Text.isBlank at hall
      rw [takeWhile_concat hstop, dropWhile_concat hstop, hall]

theorem eq_of_dropCarriageReturn : Text.dropCarriageReturn line = line ∨
    line = Text.dropCarriageReturn line ++ ['\r'] := by
  unfold Text.dropCarriageReturn
  split
  · next hlast => exact .inr (dropLast_append_getLast? _ hlast).symm
  · exact .inl rfl

theorem readHead_dropCarriageReturn : readHead (Text.dropCarriageReturn line) = readHead line := by
  rcases eq_of_dropCarriageReturn line with heq | heq
  · rw [heq]
  · conv_rhs => rw [heq]
    unfold readHead
    rw [matchInsertOp_concat (by decide), matchInsertOp_concat (by decide), matchReplaceOp_concat]

theorem isBlank_dropCarriageReturn :
    Text.isBlank (Text.dropCarriageReturn line) = Text.isBlank line := by
  rcases eq_of_dropCarriageReturn line with heq | heq
  · rw [heq]
  · conv_rhs => rw [heq, isBlank_concat]

theorem isPayloadTerminatorLine_dropCarriageReturn :
    isPayloadTerminatorLine (Text.dropCarriageReturn line) = isPayloadTerminatorLine line := by
  rcases eq_of_dropCarriageReturn line with heq | heq
  · rw [heq]
  conv_rhs => rw [heq]
  generalize Text.dropCarriageReturn line = s
  have htrim : Text.trimEnd (s ++ ['\r']) = Text.trimEnd s :=
    rdropWhile_concat_pos _ _ _ isSpace_return
  unfold isPayloadTerminatorLine isEnvelopeOrAbortMarkerLine
  rw [htrim]
  cases s with
  | nil => decide
  | cons c s => rfl

variable {line}

/-- How a diff ends: between operations, in the payload of its last operation, or at a marker that
stops the parser. -/
inductive Ending where
  | outside
  | inPayload
  | endPatch
  | abort
  deriving DecidableEq

namespace Ending

def stopped : Ending → Bool
  | outside | inPayload => false
  | endPatch | abort => true

def warnings : Ending → List Text
  | abort => [ABORT_WARNING]
  | _ => []

end Ending

def EndsPayload (lines : List Text) : Prop :=
  ∀ line ∈ lines.head?, isPayloadTerminatorLine line = true

instance (lines : List Text) : Decidable (EndsPayload lines) :=
  inferInstanceAs (Decidable (∀ line ∈ lines.head?, isPayloadTerminatorLine line = true))

/-- The lines from line `n` on are the operations, with the lines they stand on. -/
inductive Reads : Nat → List Text → List (Nat × Op) → Ending → Prop where
  | nil (n : Nat) : Reads n [] [] .outside
  | blank {n : Nat} {line : Text} {rest : List Text} {ops : List (Nat × Op)} {ending : Ending}
      (hblank : Text.isBlank line = true) (hrest : Reads (n + 1) rest ops ending) :
      Reads n (line :: rest) ops ending
  | beginPatch {n : Nat} {rest : List Text} {ops : List (Nat × Op)} {ending : Ending}
      (hrest : Reads (n + 1) rest ops ending) : Reads n (BEGIN_PATCH_MARKER :: rest) ops ending
  | endPatch (n : Nat) (rest : List Text) : Reads n (END_PATCH_MARKER :: rest) [] .endPatch
  | abort (n : Nat) (rest : List Text) : Reads n (ABORT_MARKER :: rest) [] .abort
  | op {n : Nat} {line : Text} {payload next : List Text} {head : OpHead} {ops : List (Nat × Op)}
      {ending : Ending} (hhead : readHead line = some head)
      (hpayload : ∀ text ∈ payload, isPayloadTerminatorLine text = false) (hnext : EndsPayload next)
      (hcomplete : head.complete payload = true)
      (hrest : Reads (n + 1 + payload.length) next ops ending) :
      Reads n (line :: (payload ++ next)) ((n, head.op payload) :: ops)
        (if next = [] then .inPayload else ending)

variable {lines next payload : List Text} {head : OpHead} {fuel n : Nat} {ops : List (Nat × Op)}
    {ending : Ending}

variable (hpayload : ∀ text ∈ payload, isPayloadTerminatorLine text = false)
include hpayload

theorem takeWhile_payload (hnext : EndsPayload next) :
    (payload ++ next).takeWhile (!isPayloadTerminatorLine ·) = payload ∧
      (payload ++ next).dropWhile (!isPayloadTerminatorLine ·) = next := by
  have hall : ∀ text ∈ payload, (!isPayloadTerminatorLine text) = true :=
    fun text htext => by rw [hpayload text htext, Bool.not_false]
  rw [takeWhile_append_of_pos hall, dropWhile_append_of_pos hall]
  cases next with
  | nil => exact ⟨append_nil _, rfl⟩
  | cons line next =>
    have hline : isPayloadTerminatorLine line = true := hnext line rfl
    simp [hline]

theorem withPayload_eq (hnext : EndsPayload next) (hcomplete : head.complete payload = true) :
    head.withPayload (payload ++ next) = some (head.op payload, next) := by
  obtain ⟨htake, hdrop⟩ := takeWhile_payload hpayload hnext
  unfold OpHead.withPayload
  rw [htake, hdrop, if_pos hcomplete]

omit hpayload

theorem withPayload_eq_some {rest : List Text} {op : Op}
    (h : head.withPayload rest = some (op, next)) :
    ∃ payload, rest = payload ++ next ∧ op = head.op payload ∧ head.complete payload = true ∧
      (∀ text ∈ payload, isPayloadTerminatorLine text = false) ∧ EndsPayload next := by
  unfold OpHead.withPayload at h
  dsimp only at h
  split at h
  · next hcomplete =>
    cases h
    refine ⟨_, (takeWhile_append_dropWhile ..).symm, rfl, hcomplete, ?_, ?_⟩
    · intro text htext
      simpa using mem_takeWhile_imp htext
    · intro line hline
      have hstop := head?_dropWhile_not (!isPayloadTerminatorLine ·) rest
      rw [Option.mem_def.1 hline] at hstop
      simpa using hstop
  · cases h

theorem Reads.of_parseOps (hfuel : lines.length ≤ fuel) {warnings : List Text}
    (h : parseOps fuel n lines = .ok (ops, warnings)) :
    ∃ ending, Reads n lines ops ending ∧ warnings = ending.warnings := by
  induction fuel generalizing n lines ops with
  | zero =>
    obtain rfl : lines = [] := length_eq_zero_iff.1 (Nat.le_zero.1 hfuel)
    cases h
    exact ⟨.outside, .nil n, rfl⟩
  | succ fuel ih =>
    cases lines with
    | nil =>
      cases h
      exact ⟨.outside, .nil n, rfl⟩
    | cons line rest =>
      rw [length_cons] at hfuel
      unfold parseOps at h
      split at h
      · next hblank =>
        obtain ⟨ending, hreads, hwarnings⟩ := ih (by omega) h
        exact ⟨ending, .blank hblank hreads, hwarnings⟩
      split at h
      · next hend =>
        cases h
        exact ⟨.endPatch, hend ▸ .endPatch n rest, rfl⟩
      split at h
      · next habort =>
        cases h
        exact ⟨.abort, habort ▸ .abort n rest, rfl⟩
      split at h
      · next hbegin =>
        obtain ⟨ending, hreads, hwarnings⟩ := ih (by omega) h
        exact ⟨ending, hbegin ▸ .beginPatch hreads, hwarnings⟩
      cases hparsed : parseOp n line rest with
      | error e => simp [hparsed, bind, Except.bind] at h
      | ok parsed =>
        obtain ⟨op, next⟩ := parsed
        obtain ⟨head, hhead, hwith⟩ := parseOp_ok_iff.1 hparsed
        obtain ⟨payload, rfl, rfl, hcomplete, hpayload, hnext⟩ := withPayload_eq_some hwith
        have hcount :
            n + (1 + (payload ++ next).length - next.length) = n + 1 + payload.length := by
          rw [length_append]
          omega
        cases hlater : parseOps fuel (n + 1 + payload.length) next with
        | error e =>
          simp only [hparsed, hcount, hlater, bind, Except.bind] at h
          cases h
        | ok later =>
          obtain ⟨later, laterWarnings⟩ := later
          simp only [hparsed, hcount, hlater, bind, Except.bind, pure, Except.pure,
            Except.ok.injEq, Prod.mk.injEq] at h
          obtain ⟨rfl, rfl⟩ := h
          obtain ⟨ending, hreads, hwarnings⟩ := ih (by omega) hlater
          refine ⟨_, .op hhead hpayload hnext hcomplete hreads, ?_⟩
          split
          · next hnil =>
            rw [hnil] at hreads
            cases hreads
            exact hwarnings
          · exact hwarnings

theorem Reads.parseOps_eq (h : Reads n lines ops ending) (hfuel : lines.length ≤ fuel) :
    parseOps fuel n lines = .ok (ops, ending.warnings) := by
  induction h generalizing fuel with
  | nil n => cases fuel <;> rfl
  | blank hblank hrest ih =>
    cases fuel with
    | zero => exact absurd hfuel (by simp)
    | succ fuel =>
      unfold parseOps
      rw [if_pos hblank]
      exact ih (Nat.le_of_succ_le_succ hfuel)
  | beginPatch hrest ih =>
    cases fuel with
    | zero => exact absurd hfuel (by simp)
    | succ fuel =>
      exact ih (Nat.le_of_succ_le_succ hfuel)
  | endPatch n rest =>
    cases fuel with
    | zero => exact absurd hfuel (by simp)
    | succ fuel =>
      rfl
  | abort n rest =>
    cases fuel with
    | zero => exact absurd hfuel (by simp)
    | succ fuel =>
      rfl
  | @op n line payload next head ops ending hhead hpayload hnext hcomplete hrest ih =>
    cases fuel with
    | zero => exact absurd hfuel (by simp)
    | succ fuel =>
      obtain ⟨hblank, hend, habort, hbegin⟩ := readHead_ne_marker hhead
      have hparsed : parseOp n line (payload ++ next) = .ok (head.op payload, next) :=
        parseOp_ok_iff.2 ⟨head, hhead, withPayload_eq hpayload hnext hcomplete⟩
      have hcount : n + (1 + (payload ++ next).length - next.length) = n + 1 + payload.length := by
        rw [length_append]
        omega
      rw [length_cons] at hfuel
      have hlater := @ih fuel (by omega)
      unfold parseOps
      rw [if_neg (by simp [hblank]), if_neg hend, if_neg habort, if_neg hbegin]
      simp only [hparsed, hcount, hlater, bind, Except.bind, pure, Except.pure]
      split
      · next hnil =>
        rw [hnil] at hrest
        cases hrest
        rfl
      · rfl

theorem parseHashlineOps_iff {diff : Text} {warnings : List Text} :
    parseHashlineOps diff = .ok (ops, warnings) ↔
      ∃ ending, Reads 1 (diffLines diff) ops ending ∧ warnings = ending.warnings := by
  constructor
  · exact Reads.of_parseOps (Nat.le_refl _)
  · rintro ⟨ending, hreads, rfl⟩
    exact hreads.parseOps_eq (Nat.le_refl _)

theorem Reads.append_stopped (h : Reads n lines ops ending) (hstopped : ending.stopped = true)
    (later : List Text) :
    Reads n (lines ++ later) ops ending := by
  induction h with
  | nil n => cases hstopped
  | blank hblank _ ih => exact .blank hblank (ih hstopped)
  | beginPatch _ ih => exact .beginPatch (ih hstopped)
  | endPatch n rest => exact .endPatch n _
  | abort n rest => exact .abort n _
  | @op n line payload next head ops ending hhead hpayload hnext hcomplete hrest ih =>
    cases next with
    | nil => cases hstopped
    | cons first next =>
      have hnext' : EndsPayload (first :: next ++ later) := hnext
      rw [cons_append, append_assoc]
      exact .op hhead hpayload hnext' hcomplete (ih hstopped)

theorem Reads.append (h : Reads n lines ops ending) (hstopped : ending.stopped = false)
    {later : List Text}
    {laterOps : List (Nat × Op)} {laterEnding : Ending}
    (hlater : Reads (n + lines.length) later laterOps laterEnding)
    (hpayload : ending = .inPayload → EndsPayload later) :
    Reads n (lines ++ later) (ops ++ laterOps) (if later = [] then ending else laterEnding) := by
  induction h with
  | nil n =>
    cases later with
    | nil =>
      cases hlater
      exact .nil n
    | cons first later => exact hlater
  | @blank n line rest ops ending hblank _ ih =>
    have hcount : n + (line :: rest).length = n + 1 + rest.length := by
      rw [length_cons]
      omega
    exact .blank hblank (ih hstopped (hcount ▸ hlater) hpayload)
  | @beginPatch n rest ops ending _ ih =>
    have hcount : n + (BEGIN_PATCH_MARKER :: rest).length = n + 1 + rest.length := by
      rw [length_cons]
      omega
    exact .beginPatch (ih hstopped (hcount ▸ hlater) hpayload)
  | endPatch n rest => cases hstopped
  | abort n rest => cases hstopped
  | @op n line payload next head ops ending hhead hpayload' hnext hcomplete hrest ih =>
    have hcount :
        n + (line :: (payload ++ next)).length = n + 1 + payload.length + next.length := by
      rw [length_cons, length_append]
      omega
    rw [hcount] at hlater
    rw [cons_append, append_assoc]
    cases next with
    | nil =>
      cases hrest
      exact .op hhead hpayload' (hpayload rfl) hcomplete hlater
    | cons first next =>
      have hnext' : EndsPayload (first :: next ++ later) := hnext
      exact .op hhead hpayload' hnext' hcomplete (ih hstopped hlater hpayload)

theorem Reads.inPayload (h : Reads n lines ops .inPayload) :
    ∃ above ending line head payload opsAbove, lines = above ++ line :: payload ∧
      Reads n above opsAbove ending ∧ ending.stopped = false ∧ readHead line = some head ∧
      (∀ text ∈ payload, isPayloadTerminatorLine text = false) ∧ head.complete payload = true ∧
      ops = opsAbove ++ [(n + above.length, head.op payload)] := by
  generalize hending : Ending.inPayload = ending at h
  induction h with
  | nil n => cases hending
  | @blank n line rest ops ending hblank _ ih =>
    obtain ⟨above, ending', line', head, payload, opsAbove, rfl, hreads, hstopped, hhead, hpayload,
      hcomplete, rfl⟩ := ih hending
    refine ⟨line :: above, ending', line', head, payload, opsAbove, rfl, .blank hblank hreads,
      hstopped, hhead, hpayload, hcomplete, ?_⟩
    rw [length_cons, Nat.add_right_comm, Nat.add_assoc]
  | @beginPatch n rest ops ending _ ih =>
    obtain ⟨above, ending', line', head, payload, opsAbove, rfl, hreads, hstopped, hhead, hpayload,
      hcomplete, rfl⟩ := ih hending
    refine ⟨BEGIN_PATCH_MARKER :: above, ending', line', head, payload, opsAbove, rfl,
      .beginPatch hreads, hstopped, hhead, hpayload, hcomplete, ?_⟩
    rw [length_cons, Nat.add_right_comm, Nat.add_assoc]
  | endPatch n rest => cases hending
  | abort n rest => cases hending
  | @op n line payload next head ops ending hhead hpayload hnext hcomplete hrest ih =>
    cases next with
    | nil =>
      cases hrest
      exact ⟨[], .outside, line, head, payload, [], by rw [append_nil]; rfl, .nil n, rfl, hhead,
        hpayload, hcomplete, rfl⟩
    | cons first next =>
      obtain ⟨above, ending', line', head', payload', opsAbove, heq, hreads, hstopped, hhead',
        hpayload', hcomplete', rfl⟩ := ih hending
      have hnext' : EndsPayload above := by
        cases above with
        | nil => exact fun l hl => by cases hl
        | cons a above =>
          obtain ⟨rfl, -⟩ := List.cons.inj heq
          exact hnext
      refine ⟨line :: (payload ++ above), if above = [] then .inPayload else ending', line', head',
        payload', (n, head.op payload) :: opsAbove, ?_,
          .op hhead hpayload hnext' hcomplete hreads, ?_,
        hhead', hpayload', hcomplete', ?_⟩
      · rw [heq, cons_append, append_assoc]
      · split
        · rfl
        · exact hstopped
      · rw [length_cons, length_append]
        congr 4
        omega

theorem Reads.dropCarriageReturn (h : Reads n lines ops ending) (hending : ending ≠ .inPayload)
    {above : List Text}
    {last : Text} (hlines : lines = above ++ [last]) :
    Reads n (above ++ [Text.dropCarriageReturn last]) ops ending := by
  induction h generalizing above with
  | nil n => exact absurd hlines (by simp)
  | @blank n line rest ops ending hblank hrest ih =>
    cases above with
    | nil =>
      obtain ⟨rfl, rfl⟩ := List.cons.inj hlines
      exact .blank (by rw [isBlank_dropCarriageReturn, hblank]) hrest
    | cons first above =>
      obtain ⟨rfl, hrest'⟩ := List.cons.inj hlines
      exact .blank hblank (ih hending hrest')
  | @beginPatch n rest ops ending hrest ih =>
    cases above with
    | nil =>
      obtain ⟨rfl, rfl⟩ := List.cons.inj hlines
      exact .beginPatch hrest
    | cons first above =>
      obtain ⟨rfl, hrest'⟩ := List.cons.inj hlines
      exact .beginPatch (ih hending hrest')
  | endPatch n rest =>
    cases above with
    | nil =>
      obtain ⟨rfl, rfl⟩ := List.cons.inj hlines
      exact .endPatch n []
    | cons first above =>
      obtain ⟨rfl, -⟩ := List.cons.inj hlines
      exact .endPatch n _
  | abort n rest =>
    cases above with
    | nil =>
      obtain ⟨rfl, rfl⟩ := List.cons.inj hlines
      exact .abort n []
    | cons first above =>
      obtain ⟨rfl, -⟩ := List.cons.inj hlines
      exact .abort n _
  | @op n line payload next head ops ending hhead hpayload hnext hcomplete hrest ih =>
    have hne : next ≠ [] := by
      rintro rfl
      exact hending (if_pos rfl)
    rw [if_neg hne] at hending ⊢
    obtain ⟨middle, last', rfl⟩ := (eq_nil_or_concat next).resolve_left hne
    rw [concat_eq_append] at hlines hnext ih
    rw [← append_assoc, ← cons_append] at hlines
    obtain ⟨rfl, hlast⟩ := append_inj' hlines rfl
    obtain rfl := (List.cons.inj hlast).1
    have hnext' : EndsPayload (middle ++ [Text.dropCarriageReturn last']) := by
      cases middle with
      | nil =>
        intro l hl
        cases hl
        rw [isPayloadTerminatorLine_dropCarriageReturn]
        exact hnext last' rfl
      | cons first middle => exact hnext
    have hreads := Reads.op hhead hpayload hnext' hcomplete (ih hending rfl)
    rw [if_neg (by simp)] at hreads
    rw [cons_append, append_assoc]
    exact hreads

theorem Reads.skip (h : Reads n (payload ++ lines) ops ending)
    (hpayload : ∀ text ∈ payload, isPayloadTerminatorLine text = false) :
    Reads (n + payload.length) lines ops ending := by
  induction payload generalizing n with
  | nil => exact h
  | cons text payload ih =>
    have htext := hpayload text mem_cons_self
    have hrest : Reads (n + 1) (payload ++ lines) ops ending := by
      rw [cons_append] at h
      generalize htexts : payload ++ lines = rest at h ⊢
      cases h with
      | blank hblank hrest => exact hrest
      | beginPatch hrest => exact absurd htext (by decide)
      | endPatch n rest => exact absurd htext (by decide)
      | abort n rest => exact absurd htext (by decide)
      | op hhead => exact absurd htext (by simp [isPayloadTerminatorLine_of_readHead hhead])
    have hskipped := ih hrest fun text' htext' => hpayload text' (mem_cons_of_mem _ htext')
    rw [length_cons, ← Nat.add_assoc, Nat.add_right_comm]
    exact hskipped

theorem Reads.renumber (h : Reads n lines ops ending) (m : Nat) :
    ∃ ops', Reads m lines ops' ending ∧ ops'.map Prod.snd = ops.map Prod.snd := by
  induction h generalizing m with
  | nil n => exact ⟨[], .nil m, rfl⟩
  | blank hblank _ ih =>
    obtain ⟨ops', hreads, hops⟩ := ih (m + 1)
    exact ⟨ops', .blank hblank hreads, hops⟩
  | beginPatch _ ih =>
    obtain ⟨ops', hreads, hops⟩ := ih (m + 1)
    exact ⟨ops', .beginPatch hreads, hops⟩
  | endPatch n rest => exact ⟨[], .endPatch m rest, rfl⟩
  | abort n rest => exact ⟨[], .abort m rest, rfl⟩
  | @op n line payload next head ops ending hhead hpayload hnext hcomplete hrest ih =>
    obtain ⟨ops', hreads, hops⟩ := ih (m + 1 + payload.length)
    refine ⟨_, .op hhead hpayload hnext hcomplete hreads, ?_⟩
    rw [map_cons, map_cons, hops]

def endingFrom : Ending → List Text → Ending
  | ending, [] => ending
  | ending, line :: rest =>
    if ending = .inPayload ∧ isPayloadTerminatorLine line = false then endingFrom .inPayload rest
    else if Text.isBlank line then endingFrom .outside rest
    else if line = END_PATCH_MARKER then .endPatch
    else if line = ABORT_MARKER then .abort
    else if line = BEGIN_PATCH_MARKER then endingFrom .outside rest
    else endingFrom .inPayload rest

include hpayload

theorem endingFrom_payload (hnext : EndsPayload next) :
    endingFrom .inPayload (payload ++ next) =
      if next = [] then .inPayload else endingFrom .outside next := by
  induction payload with
  | nil =>
    cases next with
    | nil => rfl
    | cons line next =>
      have hline : isPayloadTerminatorLine line = true := hnext line rfl
      simp only [nil_append, endingFrom, hline, Bool.true_eq_false, and_false, if_false,
        reduceCtorEq]
  | cons text payload ih =>
    have htext := hpayload text mem_cons_self
    rw [cons_append, endingFrom, if_pos ⟨rfl, htext⟩]
    exact ih fun text' htext' => hpayload text' (mem_cons_of_mem _ htext')

omit hpayload

theorem Reads.endingFrom_eq (h : Reads n lines ops ending) :
    endingFrom .outside lines = ending := by
  have houtside : ∀ (line : Text) (rest : List Text), endingFrom .outside (line :: rest) =
      if Text.isBlank line then endingFrom .outside rest
      else if line = END_PATCH_MARKER then .endPatch
      else if line = ABORT_MARKER then .abort
      else if line = BEGIN_PATCH_MARKER then endingFrom .outside rest
      else endingFrom .inPayload rest := by
    intro line rest
    rw [endingFrom, if_neg (by simp)]
  induction h with
  | nil n => rfl
  | blank hblank _ ih =>
    rw [houtside, if_pos hblank]
    exact ih
  | beginPatch _ ih =>
    exact ih
  | endPatch n rest =>
    rw [houtside, if_neg (by decide), if_pos rfl]
  | abort n rest =>
    rw [houtside, if_neg (by decide), if_neg (by decide), if_pos rfl]
  | op hhead hpayload hnext hcomplete _ ih =>
    obtain ⟨hblank, hend, habort, hbegin⟩ := readHead_ne_marker hhead
    rw [houtside, if_neg (by simp [hblank]), if_neg hend, if_neg habort, if_neg hbegin,
      endingFrom_payload hpayload hnext, ih]

def diffEnding (diff : Text) : Ending := endingFrom .outside (diffLines diff)

theorem Reads.ops_unique {m : Nat} {ops' : List (Nat × Op)}
    {ending' : Ending} (h : Reads n lines ops ending) (h' : Reads m lines ops' ending') :
    ops.map Prod.snd = ops'.map Prod.snd := by
  obtain ⟨ops'', hreads, hops⟩ := h.renumber m
  have heq := (hreads.parseOps_eq (Nat.le_refl _)).symm.trans (h'.parseOps_eq (Nat.le_refl _))
  rw [← hops, (Prod.mk.inj (Except.ok.inj heq)).1]

end Vibrato.Hashline

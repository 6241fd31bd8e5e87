import Vibrato.Edit.Diff

/-! The editable text of a notebook (`edit/notebook.ts`): every cell is a marker line with its type
and its number, and then its source. -/

namespace Vibrato.Edit

open List Text Option Prod

inductive NotebookCellType where
  | code
  | markdown
  | raw
  deriving DecidableEq

def NotebookCellType.name : NotebookCellType → Text
  | code => "code".toList
  | markdown => "markdown".toList
  | raw => "raw".toList

inductive CellSource where
  | text (text : Text)
  | lines (lines : List Text)

/-- A cell, with values of type `V` where the source does not look into them.  A field that is
absent is `none`, and `some none` is a `null`. -/
structure NotebookCell (V : Type) where
  cellType : NotebookCellType
  source : Option CellSource
  metadata : Option V
  executionCount : Option (Option V)
  outputs : Option (List V)
  others : List (Text × V)

structure NotebookDocument (V : Type) where
  cells : List (NotebookCell V)
  metadata : V
  nbformat : Nat
  nbformatMinor : Nat
  others : List (Text × V)

def sourceToText : Option CellSource → Text
  | none => []
  | some (.text text) => text
  | some (.lines lines) => lines.flatten

/-- The matches of `/[^\n]*\n|[^\n]+$/g`. -/
def splitNotebookSource (content : Text) : List Text :=
  let lines := splitLines content
  lines.dropLast.map (· ++ ['\n']) ++ (lines.getLast?.filter (· ≠ [])).toList

section Cells

variable {V : Type}

/-- `createNotebookCell`, where `empty` is the empty record. -/
def createNotebookCell (empty : V) (cellType : NotebookCellType) (source : Text) :
    NotebookCell V where
  cellType := cellType
  source := some (.lines (splitNotebookSource source))
  metadata := some empty
  executionCount := if cellType = .code then some none else none
  outputs := if cellType = .code then some [] else none
  others := []

def cellMarker (cellType : NotebookCellType) (index : Nat) : Text :=
  "# %% [".toList ++ cellType.name ++ "] cell:".toList ++ ofNat index

def cellToEditableText (index : Nat) (cell : NotebookCell V) : Text :=
  let source := sourceToText cell.source
  if source ≠ [] then cellMarker cell.cellType index ++ '\n' :: source
  else cellMarker cell.cellType index

def notebookToEditableText (notebook : NotebookDocument V) : Text :=
  joinLines (notebook.cells.mapIdx cellToEditableText)

end Cells

structure ParsedVirtualCell where
  cellType : NotebookCellType
  cellIndex : Option Nat
  source : Text

structure VirtualCellMarker where
  cellType : NotebookCellType
  cellIndex : Option Nat

/-- A match of `(code|markdown|raw)\]`. -/
def eatCellType (s : Text) : Option (NotebookCellType × Text) :=
  [NotebookCellType.code, .markdown, .raw].findSome? fun cellType =>
    (eat (cellType.name ++ "]".toList) s).map fun rest => (cellType, rest)

/-- `CELL_MARKER_RE`, as in `# %% [code] cell:3`. -/
def parseVirtualCellMarker (line : Text) : Option VirtualCellMarker := do
  let (cellType, s) ← eatCellType (← eat "# %% [".toList line)
  if s = [] then return ⟨cellType, none⟩
  let digits ← eat " cell:".toList s
  if digits ≠ [] ∧ digits.all isDigit = true then
    return ⟨cellType, some (parseDigits digits)⟩
  else none

structure CurrentCell where
  cellType : NotebookCellType
  cellIndex : Option Nat
  lines : List Text

def flushCell (current : Option CurrentCell) : List ParsedVirtualCell :=
  (current.map fun cell => ⟨cell.cellType, cell.cellIndex, joinLines cell.lines⟩).toList

def firstLineError (displayPath : Text) : Text :=
  "Invalid notebook editable representation for ".toList ++ displayPath ++
    (": expected first line to be \"# %% [code] cell:0\", \"# %% [markdown] cell:0\", or " ++
      "\"# %% [raw] cell:0\".").toList

def parseCells (displayPath : Text) : Option CurrentCell → List Text →
    Except Text (List ParsedVirtualCell)
  | current, [] => .ok (flushCell current)
  | current, line :: lines =>
    match parseVirtualCellMarker line with
    | some marker => do
      let cells ← parseCells displayPath (some ⟨marker.cellType, marker.cellIndex, []⟩) lines
      return flushCell current ++ cells
    | none =>
      match current with
      | none => .error (firstLineError displayPath)
      | some cell => parseCells displayPath (some { cell with lines := cell.lines ++ [line] }) lines

def parseNotebookEditableText (text displayPath : Text) : Except Text (List ParsedVirtualCell) :=
  parseCells displayPath none (if text = [] then [] else splitLines text)

section Apply

variable {V : Type}

def reuseCell (original : NotebookCell V) (parsed : ParsedVirtualCell) : NotebookCell V :=
  let cell := { original with
    cellType := parsed.cellType, source := some (.lines (splitNotebookSource parsed.source)) }
  if parsed.cellType = .code then
    { cell with executionCount := some (cell.executionCount.getD none),
                outputs := some (cell.outputs.getD []) }
  else { cell with executionCount := none, outputs := none }

def originalCell (cells : List (NotebookCell V)) (used : List Nat) (parsed : ParsedVirtualCell) :
    Option (Nat × NotebookCell V) :=
  (parsed.cellIndex.filter (· ∉ used)).bind fun i => cells[i]?.map fun cell => (i, cell)

/-- The cells that are made of the ones read, each with the number of the cell it reuses. -/
def applyCells (empty : V) (cells : List (NotebookCell V)) :
    List Nat → List ParsedVirtualCell → List (Option Nat × NotebookCell V)
  | _, [] => []
  | used, parsed :: rest =>
    match originalCell cells used parsed with
    | some (i, original) =>
      (some i, reuseCell original parsed) :: applyCells empty cells (i :: used) rest
    | none =>
      (none, createNotebookCell empty parsed.cellType parsed.source) ::
        applyCells empty cells used rest

def nextCells (empty : V) (notebook : NotebookDocument V) (text displayPath : Text) :
    Except Text (List (Option Nat × NotebookCell V)) :=
  (parseNotebookEditableText text displayPath).map (applyCells empty notebook.cells [])

def applyNotebookEditableText (empty : V) (notebook : NotebookDocument V)
    (text displayPath : Text) :
    Except Text (NotebookDocument V) := do
  let cells ← nextCells empty notebook text displayPath
  return { notebook with cells := cells.map snd }

end Apply

def isCellMarker (line : Text) : Bool := (parseVirtualCellMarker line).isSome

theorem eat_append (head rest : Text) : eat head (head ++ rest) = some rest := by
  unfold eat startsWith
  rw [if_pos ( isPrefixOf_iff_prefix.2 (prefix_append head rest)), drop_left]

variable (cellType : NotebookCellType)

theorem eatCellType_name (rest : Text) :
    eatCellType (cellType.name ++ ("]".toList ++ rest)) = some (cellType, rest) := by
  cases cellType <;> rfl

theorem parseVirtualCellMarker_cellMarker (index : Nat) :
    parseVirtualCellMarker (cellMarker cellType index) = some ⟨cellType, some index⟩ := by
  have hmarker : cellMarker cellType index =
      "# %% [".toList ++ (cellType.name ++ ("]".toList ++ (" cell:".toList ++ ofNat index))) := by
    unfold cellMarker
    rw [append_assoc]
    rfl
  have hdigits : ofNat index ≠ [] ∧ (ofNat index).all isDigit = true :=
    ⟨Nat.toDigits_ne_nil, all_eq_true.2 fun c => isDigit_of_mem_ofNat⟩
  unfold parseVirtualCellMarker
  rw [hmarker, eat_append, bind_eq_bind, bind_some, eatCellType_name, bind_eq_bind, bind_some]
  dsimp only
  rw [eat_append]
  dsimp only [bind, bind_some]
  rw [if_pos hdigits, parseDigits_ofNat]
  rfl

theorem flatten_splitNotebookSource (content : Text) :
    (splitNotebookSource content).flatten = content := by
  have hne : splitLines content ≠ [] := splitOn_ne_nil _ _
  have hjoin := joinLines_splitLines content
  obtain ⟨front, last, hlines⟩ := (eq_nil_or_concat' _).resolve_left hne
  unfold splitNotebookSource
  rw [hlines, joinLines_append_left front (cons_ne_nil _ _)] at hjoin
  rw [hlines]
  rw [← hjoin, flatMap_def]
  cases last with
  | nil => simp [joinLines]
  | cons c rest => simp [joinLines, Option.filter]

section RoundTrip

variable {V : Type} {cells : List (NotebookCell V)}

def Unmarked (notebook : NotebookDocument V) : Prop :=
  ∀ cell ∈ notebook.cells, ∀ line ∈ splitLines (sourceToText cell.source), isCellMarker line = false

def sourceLines (source : Text) : List Text := if source ≠ [] then splitLines source else []

theorem splitLines_cellToEditableText (index : Nat) (cell : NotebookCell V) :
    splitLines (cellToEditableText index cell) =
      cellMarker cell.cellType index :: sourceLines (sourceToText cell.source) := by
  have hmarker : '\n' ∉ cellMarker cell.cellType index := by
    have hindex : '\n' ∉ ofNat index := fun h => by
      have hdigit := isDigit_of_mem_ofNat h
      exact absurd hdigit (by decide)
    have hhead : '\n' ∉ "# %% [".toList ++ cell.cellType.name ++ "] cell:".toList := by
      cases cell.cellType <;> decide
    unfold cellMarker
    rw [mem_append, not_or]
    exact ⟨hhead, hindex⟩
  have hsplit : splitLines (cellMarker cell.cellType index) = [cellMarker cell.cellType index] :=
    splitOn_eq_singleton hmarker
  unfold cellToEditableText sourceLines
  dsimp only
  split
  · have happend : splitLines (cellMarker cell.cellType index ++ '\n' :: sourceToText cell.source) =
        splitLines (cellMarker cell.cellType index) ++ splitLines (sourceToText cell.source) :=
      splitOn_append_cons_self _ _
    rw [happend, hsplit, singleton_append]
  · exact hsplit

theorem joinLines_sourceLines (source : Text) : joinLines (sourceLines source) = source := by
  unfold sourceLines
  split
  · exact joinLines_splitLines source
  · next hnil =>
    rw [not_not] at hnil
    rw [hnil]
    rfl

theorem parseCells_append (displayPath : Text) (cell : CurrentCell) {lines : List Text}
    (hlines : ∀ line ∈ lines, isCellMarker line = false) (rest : List Text) :
    parseCells displayPath (some cell) (lines ++ rest) =
      parseCells displayPath (some { cell with lines := cell.lines ++ lines }) rest := by
  induction lines generalizing cell with
  | nil => rw [append_nil, nil_append]
  | cons line lines ih =>
    have hnone : parseVirtualCellMarker line = none := by
      have hline := hlines line mem_cons_self
      unfold isCellMarker at hline
      exact not_isSome_iff_eq_none.1 (by rw [hline]; exact Bool.false_ne_true)
    rw [cons_append, parseCells, hnone]
    rw [ih _ fun l hl => hlines l (mem_cons_of_mem _ hl)]
    simp only [append_assoc, singleton_append]

def virtualCells : Nat → List (NotebookCell V) → List ParsedVirtualCell
  | _, [] => []
  | k, cell :: cells =>
      ⟨cell.cellType, some k, sourceToText cell.source⟩ :: virtualCells (k + 1) cells

def cellsLines : Nat → List (NotebookCell V) → List Text
  | _, [] => []
  | k, cell :: cells =>
    cellMarker cell.cellType k ::
      (sourceLines (sourceToText cell.source) ++ cellsLines (k + 1) cells)

theorem flatMap_mapIdx_cellToEditableText (k : Nat) (cells : List (NotebookCell V)) :
    (cells.mapIdx fun i => cellToEditableText (i + k)).flatMap splitLines = cellsLines k cells := by
  induction cells generalizing k with
  | nil => rfl
  | cons cell cells ih =>
    rw [mapIdx_cons, flatMap_cons, splitLines_cellToEditableText, cellsLines, ← ih (k + 1)]
    simp only [Nat.zero_add, cons_append, Nat.add_assoc, Nat.add_comm 1 k]

theorem parseCells_cellsLines (displayPath : Text) (current : Option CurrentCell) (k : Nat)
    (hunmarked : ∀ cell ∈ cells, ∀ line ∈ sourceLines (sourceToText cell.source),
      isCellMarker line = false) :
    parseCells displayPath current (cellsLines k cells) =
      .ok (flushCell current ++ virtualCells k cells) := by
  induction cells generalizing current k with
  | nil => simp [cellsLines, parseCells, virtualCells]
  | cons cell cells ih =>
    rw [cellsLines, parseCells.eq_def]
    dsimp only
    rw [parseVirtualCellMarker_cellMarker]
    dsimp only
    rw [parseCells_append displayPath _ (hunmarked cell mem_cons_self),
      ih _ _ fun c hc => hunmarked c (mem_cons_of_mem _ hc)]
    show Except.ok (flushCell current ++ (flushCell (some ⟨cell.cellType, some k, _⟩) ++ _)) = _
    rw [nil_append, virtualCells]
    simp only [flushCell, map_some, toList_some, joinLines_sourceLines, singleton_append]

theorem parseNotebookEditableText_notebookToEditableText {notebook : NotebookDocument V}
    (hunmarked : Unmarked notebook) (displayPath : Text) :
    parseNotebookEditableText (notebookToEditableText notebook) displayPath =
      .ok (virtualCells 0 notebook.cells) := by
  have hlines : (if notebookToEditableText notebook = [] then []
      else splitLines (notebookToEditableText notebook)) = cellsLines 0 notebook.cells := by
    cases hcells : notebook.cells with
    | nil => simp [notebookToEditableText, hcells, cellsLines, joinLines]
    | cons cell cells =>
      have hne : notebook.cells.mapIdx cellToEditableText ≠ [] := by simp [hcells]
      have hsplit : splitLines (notebookToEditableText notebook) = cellsLines 0 notebook.cells := by
        rw [notebookToEditableText, splitLines_joinLines_eq_flatMap hne,
          ← flatMap_mapIdx_cellToEditableText 0]
        rfl
      rw [if_neg, hsplit, hcells]
      intro hnil
      rw [hnil, hcells] at hsplit
      have hmarker : cellMarker cell.cellType 0 = [] := (List.cons.inj hsplit).1.symm
      cases hmarker
  unfold parseNotebookEditableText
  rw [hlines]
  refine parseCells_cellsLines displayPath none 0 fun cell hcell line hline =>
    hunmarked cell hcell line ?_
  unfold sourceLines at hline
  split at hline
  · exact hline
  · cases hline

structure KeepsCell (cell next : NotebookCell V) : Prop where
  cellType : next.cellType = cell.cellType
  metadata : next.metadata = cell.metadata
  source : sourceToText next.source = sourceToText cell.source
  outputs : cell.cellType = .code → next.outputs = some (cell.outputs.getD [])
  others : next.others = cell.others

theorem keepsCell_reuseCell (cell : NotebookCell V) (index : Option Nat) :
    KeepsCell cell (reuseCell cell ⟨cell.cellType, index, sourceToText cell.source⟩) := by
  unfold reuseCell
  split
  · exact ⟨rfl, rfl, flatten_splitNotebookSource _, fun _ => rfl, rfl⟩
  · next hcode => exact ⟨rfl, rfl, flatten_splitNotebookSource _, fun h => absurd h hcode, rfl⟩

variable (empty : V)

theorem applyCells_virtualCells (done cells : List (NotebookCell V)) {used : List Nat}
    (hused : ∀ i ∈ used, i < done.length) :
    List.Forall₂ KeepsCell cells
      ((applyCells empty (done ++ cells) used (virtualCells done.length cells)).map snd) := by
  induction cells generalizing done used with
  | nil => exact List.Forall₂.nil
  | cons cell cells ih =>
    have horiginal : originalCell (done ++ cell :: cells) used
        ⟨cell.cellType, some done.length, sourceToText cell.source⟩ = some (done.length, cell) := by
      have hnot : done.length ∉ used := fun h => Nat.lt_irrefl _ (hused _ h)
      simp [originalCell, Option.filter, hnot]
    rw [virtualCells, applyCells, horiginal]
    refine List.Forall₂.cons (keepsCell_reuseCell cell _) ?_
    have hlt : ∀ i ∈ done.length :: used, i < (done ++ [cell]).length := by
      intro i hi
      rw [length_append]
      rcases mem_cons.1 hi with rfl | hi
      · exact Nat.lt_succ_self _
      · exact Nat.lt_succ_of_lt (hused i hi)
    have hrest := ih (done ++ [cell]) hlt
    rw [length_append, ← append_cons] at hrest
    exact hrest

def IsMadeFrom (cells : List (NotebookCell V)) : Option Nat × NotebookCell V → Prop
  | (some i, cell) =>
      ∃ original parsed, cells[i]? = some original ∧ cell = reuseCell original parsed
  | (none, cell) => ∃ cellType source, cell = createNotebookCell empty cellType source

theorem originalCell_eq_some {used : List Nat} {parsed : ParsedVirtualCell}
    {i : Nat} {original : NotebookCell V}
    (h : originalCell cells used parsed = some (i, original)) :
    i ∉ used ∧ cells[i]? = some original := by
  obtain ⟨j, hj, hget⟩ := bind_eq_some_iff.1 h
  obtain ⟨cell, hcell, heq⟩ := map_eq_some_iff.1 hget
  cases heq
  have hused := (filter_eq_some_iff.1 hj).2
  exact ⟨by simpa using hused, hcell⟩

theorem applyCells_spec (cells : List (NotebookCell V)) (used : List Nat)
    (parsed : List ParsedVirtualCell) :
    ((applyCells empty cells used parsed).filterMap fst).Nodup ∧
      (∀ i ∈ (applyCells empty cells used parsed).filterMap fst, i ∉ used) ∧
      ∀ made ∈ applyCells empty cells used parsed, IsMadeFrom empty cells made := by
  induction parsed generalizing used with
  | nil => simp [applyCells]
  | cons cell parsed ih =>
    rw [applyCells]
    split
    · next i original horiginal =>
      obtain ⟨hnodup, hnot, hmade⟩ := ih (i :: used)
      obtain ⟨hi, hget⟩ := originalCell_eq_some horiginal
      refine ⟨nodup_cons.2 ⟨fun hmem => hnot i hmem mem_cons_self, hnodup⟩, fun j hj => ?_,
        fun made hmem => ?_⟩
      · rcases mem_cons.1 hj with rfl | hj
        · exact hi
        · exact fun hused => hnot j hj (mem_cons_of_mem _ hused)
      · rcases mem_cons.1 hmem with rfl | hmem
        · exact ⟨original, cell, hget, rfl⟩
        · exact hmade made hmem
    · obtain ⟨hnodup, hnot, hmade⟩ := ih used
      refine ⟨hnodup, hnot, fun made hmem => ?_⟩
      rcases mem_cons.1 hmem with rfl | hmem
      · exact ⟨cell.cellType, cell.source, rfl⟩
      · exact hmade made hmem

/-- A notebook comes back from its own text with its cells, and no text reuses a cell twice. -/
theorem applyNotebookEditableText_keeps (empty : V) (notebook : NotebookDocument V)
    (displayPath : Text) :
    (Unmarked notebook →
      ∃ next, applyNotebookEditableText empty notebook
        (notebookToEditableText notebook) displayPath = .ok next ∧
        List.Forall₂ KeepsCell notebook.cells next.cells) ∧
    ∀ text next, applyNotebookEditableText empty notebook text displayPath = .ok next →
      ∃ made, nextCells empty notebook text displayPath = .ok made ∧ next.cells = made.map snd ∧
        (∀ item ∈ made, IsMadeFrom empty notebook.cells item) ∧ (made.filterMap fst).Nodup := by
  refine ⟨fun hunmarked => ?_, fun text next happly => ?_⟩
  · have hparse := parseNotebookEditableText_notebookToEditableText hunmarked displayPath
    have hkeeps := applyCells_virtualCells empty [] notebook.cells (forall_mem_nil _)
    refine ⟨{ notebook with cells := (applyCells empty notebook.cells []
      (virtualCells 0 notebook.cells)).map snd }, ?_, hkeeps⟩
    unfold applyNotebookEditableText nextCells
    rw [hparse]
    rfl
  · unfold applyNotebookEditableText at happly
    cases hnext : nextCells empty notebook text displayPath with
    | error message =>
      rw [hnext] at happly
      cases happly
    | ok made =>
      rw [hnext] at happly
      cases happly
      refine ⟨made, rfl, rfl, ?_⟩
      unfold nextCells at hnext
      cases hparse : parseNotebookEditableText text displayPath with
      | error message =>
        rw [hparse] at hnext
        cases hnext
      | ok parsed =>
        rw [hparse] at hnext
        cases hnext
        obtain ⟨hnodup, -, hmade⟩ := applyCells_spec empty notebook.cells [] parsed
        exact ⟨hmade, hnodup⟩

end RoundTrip

def newlineNotebook : NotebookDocument Unit where
  cells :=
    [⟨.code, none, some (), some none, some [()], []⟩,
      ⟨.markdown, some (.lines ["a\n".toList, "\n".toList]), some (), none, none, []⟩,
      ⟨.code, some (.text []), some (), some none, some [], []⟩]
  metadata := ()
  nbformat := 4
  nbformatMinor := 5
  others := []

theorem applyNotebookEditableText_keeps_newlines :
    (∃ next, applyNotebookEditableText () newlineNotebook
      (notebookToEditableText newlineNotebook) [] =
        .ok next ∧ List.Forall₂ KeepsCell newlineNotebook.cells next.cells) ∧
    ∀ text next, applyNotebookEditableText () newlineNotebook text [] = .ok next →
      ∃ made, nextCells () newlineNotebook text [] = .ok made ∧ next.cells = made.map snd ∧
        (∀ item ∈ made, IsMadeFrom () newlineNotebook.cells item) ∧ (made.filterMap fst).Nodup := by
  have hunmarked : Unmarked newlineNotebook := by
    unfold Unmarked
    decide +kernel
  have hkeeps := applyNotebookEditableText_keeps () newlineNotebook []
  exact ⟨hkeeps.1 hunmarked, hkeeps.2⟩

end Vibrato.Edit

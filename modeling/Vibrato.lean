import Vibrato.Agent.AppendOnlyContext
import Vibrato.Agent.AttemptScope
import Vibrato.Agent.HarmonyLeak
import Vibrato.Agent.RunSettlement
import Vibrato.Agent.SplitTurn
import Vibrato.Agent.Summary
import Vibrato.Ai.RepairJson
import Vibrato.Ai.ToolPairing
import Vibrato.Coordinator.ClaimFence
import Vibrato.Coordinator.EnumerationRun
import Vibrato.Coordinator.HistoryKept
import Vibrato.Edit.DiffRender
import Vibrato.Edit.LineEndings
import Vibrato.Edit.Notebook
import Vibrato.Edit.PatchPaths
import Vibrato.Edit.PatchPlacement
import Vibrato.Edit.PathMutationLock
import Vibrato.Edit.StreamingPatch
import Vibrato.Goals.Accounting
import Vibrato.Hashline.DiffPreview
import Vibrato.Hashline.Grammar
import Vibrato.Hashline.Rendering
import Vibrato.Host.Events
import Vibrato.Host.LeaseEnds
import Vibrato.Jobs.Drain
import Vibrato.Jobs.OwnerShutdown
import Vibrato.Jobs.Recycling
import Vibrato.Jobs.ResumeQueue
import Vibrato.Jobs.Suppression
import Vibrato.Jobs.WaitCompletion
import Vibrato.Output.Artifact
import Vibrato.Output.ColumnCap
import Vibrato.Output.InlineBackstop
import Vibrato.Output.Summary
import Vibrato.Output.TailBuffer
import Vibrato.Pruning.ArgumentSafety
import Vibrato.Pruning.Commit
import Vibrato.Pruning.Lookup
import Vibrato.Pruning.ReadCover
import Vibrato.Pruning.VolatileContext
import Vibrato.Query.ChunkFiles
import Vibrato.Query.CursorBudget
import Vibrato.Query.RevisionIds
import Vibrato.Secrets.History
import Vibrato.Secrets.Messages
import Vibrato.Session.BranchSummary
import Vibrato.Session.ColdIdHashes
import Vibrato.Session.FallbackChain
import Vibrato.Session.FoldRuns
import Vibrato.Session.LineConsumers
import Vibrato.Session.Migrate
import Vibrato.Session.ToolChoiceQueue
import Vibrato.Session.TranscriptHash
import Vibrato.Session.Tree
import Vibrato.Session.YieldQueue
import Vibrato.Stream.SseChunks
import Vibrato.Stream.TtsrWindow
import Vibrato.Task.Parallel
import Vibrato.Tui.BracketedPaste
import Vibrato.Tui.StdinChunks
import Vibrato.Utils.RingBuffer
import Vibrato.Utils.Snowflake
import Vibrato.Vim.CharCommands
import Vibrato.Vim.Linewise
import Vibrato.Vim.Move
import Vibrato.Vim.UndoChain
import Vibrato.Secrets.RoundTrip

import CommandShell.Main
import CommandShell.PausableInput
import CommandShell.Tree.Validity
import CommandShell.Proofs.AcceptedTree
import CommandShell.Proofs.Quoting
import CommandShell.Proofs.Utf8
import CommandShell.Proofs.LexemeSeam
import CommandShell.Proofs.JoinedLines
import CommandShell.Proofs.Printing
import CommandShell.Proofs.QuotedWord
import CommandShell.Proofs.TokenLexing
import CommandShell.Proofs.PrintedTree
import CommandShell.Proofs.Respelling
import CommandShell.Proofs.WellFormedRun
import CommandShell.Proofs.ExecutionStep
import CommandShell.Proofs.OpenFiles
import CommandShell.Proofs.SettledRun
import CommandShell.Proofs.ConcurrentRun
import CommandShell.Proofs.FileLifetime
import CommandShell.Proofs.EnvironmentCopy
import CommandShell.Proofs.PipeIsolation
import CommandShell.Proofs.JsonScalar
import CommandShell.Proofs.JsonText
import CommandShell.Proofs.EntryText
import CommandShell.Proofs.CutLog
import CommandShell.Proofs.GroupTransparency
import CommandShell.Proofs.StatusRange
import CommandShell.Proofs.BlindRun
import CommandShell.Proofs.Bracketing
import CommandShell.Proofs.ChainMeaning
import CommandShell.Proofs.GroupCapture
import CommandShell.Proofs.PausedReader
import CommandShell.Proofs.EventAccount
import CommandShell.Proofs.ReadingPlace
import CommandShell.Proofs.SharedInput
import CommandShell.Proofs.SessionRun
import CommandShell.Proofs.Counting
import CommandShell.Proofs.ReportBalance
import CommandShell.Proofs.RecordedLog
import CommandShell.Proofs.ReportOrder
import CommandShell.Proofs.ReadValue
import CommandShell.Proofs.TreeJson
import CommandShell.Proofs.DoubleQuoted
import CommandShell.Proofs.OneLineForm
import CommandShell.Proofs.CleanPath
import CommandShell.Proofs.LinklessWalk
import CommandShell.Proofs.WorkingDirectory
import CommandShell.Proofs.BuiltInSettings
import CommandShell.Proofs.LoadedSettings
import CommandShell.Proofs.MadeDirectories
import CommandShell.Proofs.InitializedDirectory
import CommandShell.Proofs.GatheredWords
import CommandShell.Proofs.SplitWords
import CommandShell.Proofs.LineCharacters
import CommandShell.Proofs.SimpleCommand
import CommandShell.Proofs.AliasExpansion
import CommandShell.Proofs.ExactRedirection
import CommandShell.Proofs.SegmentLexing
import CommandShell.Proofs.WordSegments
import CommandShell.Proofs.GroupedLine
import CommandShell.Proofs.InterleavedRedirections
import CommandShell.Proofs.NestedEnvironments
import CommandShell.Proofs.ProgramSearch
import CommandShell.Proofs.DirectoryArguments
import CommandShell.Proofs.CleanWalk
import CommandShell.Proofs.RelativePath
import CommandShell.Proofs.FormTokens
import CommandShell.Proofs.ListingOrder
import CommandShell.Proofs.PromptExpansion
import CommandShell.Proofs.CountedRows
import CommandShell.Proofs.EscapeRemoval
import CommandShell.Proofs.InputLines
import CommandShell.Proofs.BlankLine

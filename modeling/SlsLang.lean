import SlsLang.Attachment
import SlsLang.FileTree
import SlsLang.Main
import SlsLang.PullSchedule
import SlsLang.Proofs.Tiling
import SlsLang.Proofs.TokenPlaces
import SlsLang.Proofs.LexemeForm
import SlsLang.Proofs.ProgramRoundTrip
import SlsLang.Proofs.PulledRecognition
import SlsLang.Proofs.PulledTokens
import SlsLang.Proofs.CreationOrder
import SlsLang.Proofs.CleanPrefix
import SlsLang.Proofs.CommentBlanking
import SlsLang.Proofs.LineBreaks
import SlsLang.Proofs.ForestEdit
import SlsLang.Proofs.DeclaredNames
import SlsLang.Proofs.DiagnosticOrder
import SlsLang.Proofs.ChainedPasses
import SlsLang.Proofs.AcceptedStatements
import SlsLang.Proofs.ParameterGrammar
import SlsLang.Proofs.FunctionGrammar
import SlsLang.Proofs.EndOfInput
import SlsLang.Proofs.BodyCut
import SlsLang.Proofs.ExitStatus
import SlsLang.Proofs.RecordingOrder
import SlsLang.Proofs.InvalidTokens
import SlsLang.Proofs.RenderedDiagnostics
import SlsLang.Proofs.ParameterReading
import SlsLang.Proofs.LegalEdges
import SlsLang.Proofs.PreOrder
import SlsLang.Proofs.NumberLaw
import SlsLang.Proofs.DumpedTree
import SlsLang.Proofs.ReportLines
import SlsLang.Proofs.GrammarValidation
import SlsLang.Proofs.ArgumentGroups

import StoryPlayer.Command.Program
import StoryPlayer.Json.Reading
import StoryPlayer.Main
import StoryPlayer.Proofs.Continuation
import StoryPlayer.Proofs.Effects
import StoryPlayer.Proofs.Simulation
import StoryPlayer.Proofs.Operations
import StoryPlayer.Proofs.Protocol
import StoryPlayer.Proofs.Activation
import StoryPlayer.Proofs.Lines
import StoryPlayer.Proofs.Journal
import StoryPlayer.Proofs.Independence
import StoryPlayer.Proofs.FrontEnds
import StoryPlayer.Proofs.PendingChoice
import StoryPlayer.Proofs.Reports
import StoryPlayer.Proofs.History
import StoryPlayer.Proofs.Documents
import StoryPlayer.Proofs.Trips
import StoryPlayer.Proofs.Conversation
import StoryPlayer.Proofs.References
import StoryPlayer.Proofs.Additions
import StoryPlayer.Proofs.Endings
import StoryPlayer.Proofs.JsonText
import StoryPlayer.Proofs.ReportText
import StoryPlayer.Proofs.Failures
import StoryPlayer.Proofs.EndMark
import StoryPlayer.Proofs.Callers
import StoryPlayer.Proofs.Declarations
import StoryPlayer.Proofs.FlagSets
import StoryPlayer.Proofs.Offering
import StoryPlayer.Proofs.Spelling
import StoryPlayer.Proofs.RawMarkup
import StoryPlayer.Proofs.OptionMarkup
import StoryPlayer.Proofs.TimerQueue
import StoryPlayer.Proofs.Pages
import StoryPlayer.Proofs.Trail
import StoryPlayer.Proofs.Enclosure
import StoryPlayer.Proofs.TypedAnswers
import StoryPlayer.Proofs.EntryNames
import StoryPlayer.Proofs.ScriptedChoices
import StoryPlayer.Proofs.StoryFolders
import StoryPlayer.Proofs.SpeakerNames
import StoryPlayer.Proofs.Waiting
import StoryPlayer.Proofs.Spans
import StoryPlayer.Proofs.Attributes
import StoryPlayer.Proofs.OneReading

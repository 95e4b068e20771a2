import BluespecDocs.Expectation
import BluespecDocs.Main
import BluespecDocs.Proofs.AlternativeOrder
import BluespecDocs.Proofs.BodyComments
import BluespecDocs.Proofs.BodyLines
import BluespecDocs.Proofs.CommentClasses
import BluespecDocs.Proofs.CommentMarks
import BluespecDocs.Proofs.CommentStyles
import BluespecDocs.Proofs.DocAttachment
import BluespecDocs.Proofs.Fences
import BluespecDocs.Proofs.GrammarProgress
import BluespecDocs.Proofs.HeaderReadings
import BluespecDocs.Proofs.LineEndings
import BluespecDocs.Proofs.LongestMatch
import BluespecDocs.Proofs.Lossless
import BluespecDocs.Proofs.NewlineCounts
import BluespecDocs.Proofs.OneTokenTexts
import BluespecDocs.Proofs.OpaqueBlocks
import BluespecDocs.Proofs.SelfContained
import BluespecDocs.Proofs.SettingPrecedence
import BluespecDocs.Proofs.TokenTiling
import BluespecDocs.Proofs.TomlTables
import BluespecDocs.Proofs.TypeDisplay
import BluespecDocs.Samples

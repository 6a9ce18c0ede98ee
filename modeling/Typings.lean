import Typings.Main
import Typings.Proofs.Grammar.Rewriting
import Typings.Proofs.Grammar.Table
import Typings.Proofs.Syntax.Factoring
import Typings.Proofs.Grammar.Items
import Typings.Proofs.Grammar.States
import Typings.Proofs.Declaration.Phrases
import Typings.Proofs.Syntax.Stack
import Typings.Proofs.Syntax.Steps
import Typings.Proofs.Declaration.Rows
import Typings.Proofs.Declaration.Types
import Typings.Proofs.Declaration.Members
import Typings.Proofs.Declaration.Classes
import Typings.Proofs.Declaration.Links
import Typings.Proofs.Declaration.Files
import Typings.Proofs.Model.Flattening
import Typings.Proofs.Report.Outcome
import Typings.Proofs.Model.Erasure
import Typings.Proofs.Grammar.Discovery
import Typings.Proofs.Grammar.Lookaheads
import Typings.Proofs.Grammar.AccessWords
import Typings.Proofs.Grammar.Beside
import Typings.Proofs.Grammar.Decisions
import Typings.Proofs.Grammar.Follows
import Typings.Proofs.Syntax.Course
import Typings.Proofs.Syntax.Feeding
import Typings.Proofs.Syntax.Parting
import Typings.Proofs.Syntax.Scanning
import Typings.Proofs.Syntax.Placing
import Typings.Proofs.Report.Spacing
import Typings.Proofs.Syntax.NextLine
import Typings.Proofs.Grammar.Elements
import Typings.Proofs.Syntax.Joining
import Typings.Proofs.Declaration.Moving
import Typings.Proofs.Declaration.Relocation
import Typings.Proofs.Report.Concatenation
import Typings.Proofs.Grammar.TypeWords
import Typings.Proofs.Syntax.Samples
import Typings.Proofs.Syntax.Completion
import Typings.Proofs.Syntax.Refusal
import Typings.Proofs.Report.Continuing
import Typings.Proofs.Report.Conversion
import Typings.Proofs.Declaration.Nodes
import Typings.Proofs.Declaration.Growing
import Typings.Proofs.Token.Places
import Typings.Proofs.Syntax.Spans
import Typings.Proofs.Report.Locations
import Typings.Proofs.Model.WellFormed
import Typings.Proofs.Syntax.Wording
import Typings.Proofs.Report.ClassModel
import Typings.Proofs.Report.Refilling
import Typings.Proofs.Command.Delivery
import Typings.Proofs.Report.LineEnds
import Typings.Proofs.Syntax.Composing
import Typings.Proofs.Syntax.Phrasing
import Typings.Proofs.Text.Quoting
import Typings.Proofs.Report.Printing
import Typings.Proofs.Syntax.Lexemes
import Typings.Proofs.Command.HandOff
import Typings.Proofs.Model.Listing
import Typings.Proofs.Report.ErrorPlaces
import Typings.Proofs.Syntax.Writing
import Typings.Proofs.Declaration.TypeTexts
import Typings.Proofs.Syntax.MemberRows
import Typings.Proofs.Declaration.MemberTexts
import Typings.Proofs.Report.KeywordNames
import Typings.Proofs.Declaration.ReadingBack
import Typings.Proofs.Report.ModuleNames
import Typings.Proofs.Report.Annotations
import Typings.Proofs.Report.BadLiterals
import Typings.Proofs.Declaration.Fallbacks
import Typings.Proofs.Declaration.Outlines
import Typings.Proofs.Report.Outlining
import Typings.Proofs.Report.OmittedSeparators
import Typings.Proofs.Report.Describing
import Typings.Proofs.Json.Ascii
import Typings.Proofs.Command.Finishing

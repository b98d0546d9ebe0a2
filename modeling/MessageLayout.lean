import MessageLayout.Block.Builder
import MessageLayout.Json.Reader
import MessageLayout.Node.Children
import MessageLayout.Payload
import MessageLayout.Settings.Loader
import MessageLayout.Proofs.ExactMode
import MessageLayout.Proofs.EscapedText
import MessageLayout.Proofs.PlainText
import MessageLayout.Proofs.Readings
import MessageLayout.Proofs.MarkedText
import MessageLayout.Proofs.CodeFences
import MessageLayout.Proofs.BalancedText
import MessageLayout.Proofs.GuardedCode
import MessageLayout.Proofs.FragmentText
import MessageLayout.Proofs.CodeInPlace
import MessageLayout.Proofs.CodePlace
import MessageLayout.Proofs.EnclosedCode
import MessageLayout.Proofs.RecordedChecks
import MessageLayout.Proofs.SoundContainers
import MessageLayout.Proofs.FragmentTags
import MessageLayout.Proofs.ShownElements
import MessageLayout.Proofs.ElementNesting
import MessageLayout.Proofs.LiteralText
import MessageLayout.Proofs.HuggedText
import MessageLayout.Proofs.CollapsedSpace
import MessageLayout.Proofs.CarriedText
import MessageLayout.Proofs.CarriedLayout
import MessageLayout.Proofs.TokenBrackets
import MessageLayout.Proofs.KeptText
import MessageLayout.Proofs.ListLayout
import MessageLayout.Proofs.ListSeparation
import MessageLayout.Proofs.LinkTokens
import MessageLayout.Proofs.LinkLines
import MessageLayout.Proofs.LinkTags
import MessageLayout.Proofs.VisibleText
import MessageLayout.Proofs.LinkPlaces
import MessageLayout.Proofs.LinkElements
import MessageLayout.Proofs.KeptLinks
import MessageLayout.Proofs.ShownLinks
import MessageLayout.Proofs.BuiltElements
import MessageLayout.Proofs.DateFragments
import MessageLayout.Proofs.StyledDates
import MessageLayout.Proofs.TextParts
import MessageLayout.Proofs.DateTokens
import MessageLayout.Proofs.DatedText
import MessageLayout.Proofs.DatedElements
import MessageLayout.Proofs.QuoteParts
import MessageLayout.Proofs.QuoteRows
import MessageLayout.Proofs.QuotedLayout
import MessageLayout.Proofs.QuotedText
import MessageLayout.Proofs.QuotedElements
import MessageLayout.Proofs.Quotations
import MessageLayout.Proofs.BlankLines
import MessageLayout.Proofs.AbsentAttributes
import MessageLayout.Proofs.TextEnds
import MessageLayout.Proofs.DelimitedText
import MessageLayout.Proofs.LineEdges
import MessageLayout.Proofs.StyledText
import MessageLayout.Proofs.FilledTrees
import MessageLayout.Proofs.HoledTrees
import MessageLayout.Proofs.HoledLayout
import MessageLayout.Proofs.LabelledText
import MessageLayout.Proofs.MentionLabels
import MessageLayout.Proofs.SpareLetters
import MessageLayout.Proofs.LackedLetters
import MessageLayout.Proofs.HiddenLabels
import MessageLayout.Proofs.ContextGroups
import MessageLayout.Proofs.RaisedErrors
import MessageLayout.Proofs.WrittenAttributes
import MessageLayout.Proofs.SearchedText
import MessageLayout.Proofs.ExactGuards
import MessageLayout.Proofs.JoinedText
import MessageLayout.Proofs.LinkReading
import MessageLayout.Proofs.DayCounts
import MessageLayout.Proofs.DatesReadBack
import MessageLayout.Proofs.LayeredSettings
import MessageLayout.Proofs.StyledLines
import MessageLayout.Proofs.ChildLists
import MessageLayout.Proofs.RenderedObjects

import OfferDesk.Desk.Rehearsal
import OfferDesk.Main
import OfferDesk.Proofs.Placing
import OfferDesk.Proofs.Rebuilding
import OfferDesk.Proofs.Redelivery
import OfferDesk.Proofs.Replay
import OfferDesk.Proofs.Reporting
import OfferDesk.Proofs.Sequences
import OfferDesk.Proofs.Watching
import OfferDesk.Proofs.Shadows
import OfferDesk.Proofs.DeskEvents
import OfferDesk.Proofs.Cancelling
import OfferDesk.Proofs.OverlappingCancels
import OfferDesk.Proofs.PlacingTurns
import OfferDesk.Proofs.OverlappingPlacements
import OfferDesk.Proofs.Displacing
import OfferDesk.Proofs.NamedOrders
import OfferDesk.Proofs.BothSides
import OfferDesk.Proofs.TidyBooks
import OfferDesk.Proofs.FundingCaps
import OfferDesk.Proofs.Channels
import OfferDesk.Proofs.Decoding
import OfferDesk.Proofs.StaleLevels
import OfferDesk.Proofs.PublishedTerms
import OfferDesk.Proofs.DecimalRange
import OfferDesk.Proofs.HaltedMessages
import OfferDesk.Proofs.ModerateMessages
import OfferDesk.Proofs.DecimalText
import OfferDesk.Proofs.Rounding
import OfferDesk.Proofs.CappedPrices
import OfferDesk.Proofs.BuiltOffers
import OfferDesk.Proofs.LegChanges
import OfferDesk.Proofs.LimitPrices
import OfferDesk.Proofs.LedgerCurrencies
import OfferDesk.Proofs.NativeBalances
import OfferDesk.Proofs.SignificantDigits
import OfferDesk.Proofs.ShortForms
import OfferDesk.Proofs.WholeDrops
import OfferDesk.Proofs.WrittenAmounts
import OfferDesk.Proofs.PlainNumbers
import OfferDesk.Proofs.IssuedValues
import OfferDesk.Proofs.UsableOffers
import OfferDesk.Proofs.Inquiries
import OfferDesk.Proofs.ClosingRounds
import OfferDesk.Proofs.IssuerSurveys
import OfferDesk.Proofs.SeparateOffers
import OfferDesk.Proofs.ReadingIds
import OfferDesk.Proofs.SymbolCodes
import OfferDesk.Proofs.JsonTexts
import OfferDesk.Proofs.TransactionRecords
import OfferDesk.Proofs.Retries

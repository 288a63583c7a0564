import ShapeCode.Trace
import ShapeCode.Buffer
import ShapeCode.Descriptor.Builder
import ShapeCode.Draft
import ShapeCode.Main
import ShapeCode.Proofs.Rounding
import ShapeCode.Proofs.Verified
import ShapeCode.Proofs.Acyclic
import ShapeCode.Proofs.PlainLayout
import ShapeCode.Proofs.ProperLayout
import ShapeCode.Proofs.OnlyOverflows
import ShapeCode.Proofs.BinaryRoundTrip
import ShapeCode.Proofs.Spots
import ShapeCode.Proofs.Containment
import ShapeCode.Proofs.Visits
import ShapeCode.Proofs.Agreement
import ShapeCode.Proofs.FlatShapes
import ShapeCode.Proofs.ImageText
import ShapeCode.Proofs.ImageSafety
import ShapeCode.Proofs.CycleSearch
import ShapeCode.Proofs.UnboundedLayout
import ShapeCode.Proofs.ValueTree
import ShapeCode.Proofs.Contents
import ShapeCode.Proofs.RunElements
import ShapeCode.Proofs.TwoLanes
import ShapeCode.Proofs.OrderStep
import ShapeCode.Proofs.Ranking
import ShapeCode.Proofs.TreeOrder
import ShapeCode.Proofs.TreeText
import ShapeCode.Proofs.Positions
import ShapeCode.Proofs.Loading
import ShapeCode.Proofs.Slots
import ShapeCode.Proofs.Standing
import ShapeCode.Proofs.InlinePlaces
import ShapeCode.Proofs.Copies
import ShapeCode.Proofs.AcceptedImages
import ShapeCode.Proofs.ReachableAddresses
import ShapeCode.Proofs.RoomForLayouts
import ShapeCode.Proofs.ShapeTrees
import ShapeCode.Proofs.JsonText
import ShapeCode.Proofs.JsonRoundTrip
import ShapeCode.Proofs.EqualValues
import ShapeCode.Proofs.HintChoice
import ShapeCode.Proofs.BuilderLimits
import ShapeCode.Proofs.CycleStack
import ShapeCode.Proofs.ExactFiles
import ShapeCode.Proofs.FaultPositions
import ShapeCode.Proofs.MeasuringOrder
import ShapeCode.Proofs.SpelledImages
import ShapeCode.Proofs.FirstDiscriminant
import ShapeCode.Proofs.DecodedImages
import ShapeCode.Proofs.RangeText
import ShapeCode.Proofs.PrintableText
import ShapeCode.Proofs.MeasuredUnions
import ShapeCode.Proofs.HintedVariants
import ShapeCode.Proofs.Stretches
import ShapeCode.Proofs.Lockstep
import ShapeCode.Proofs.SectionOffsets
import ShapeCode.Proofs.QuotedText
import ShapeCode.Proofs.ConsistentLayouts
import ShapeCode.Proofs.ListingLines
import ShapeCode.Proofs.LocalReading
import ShapeCode.Proofs.ElementCounts
import ShapeCode.Proofs.LeastMultiples

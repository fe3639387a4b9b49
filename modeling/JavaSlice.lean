import JavaSlice.Main
import JavaSlice.Proofs.ConstructorRanking
import JavaSlice.Proofs.Display
import JavaSlice.Proofs.FieldSearch
import JavaSlice.Proofs.FileOrder
import JavaSlice.Proofs.ImportLines
import JavaSlice.Proofs.KeyMap
import JavaSlice.Proofs.MemberTypes
import JavaSlice.Proofs.OutputPaths
import JavaSlice.Proofs.Queries
import JavaSlice.Proofs.Rearranging
import JavaSlice.Proofs.References
import JavaSlice.Proofs.RoundTrip
import JavaSlice.Proofs.Seeds
import JavaSlice.Proofs.SuperMembers
import JavaSlice.Proofs.TypeTable
import JavaSlice.Proofs.TypeTrees
import JavaSlice.Proofs.Unreadable

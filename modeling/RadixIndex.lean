import RadixIndex.Key.Text
import RadixIndex.Tree.Shape
import RadixIndex.Dynamic.Integrity
import RadixIndex.Static.Integrity
import RadixIndex.Index.Shared
import RadixIndex.Proofs.Key
import RadixIndex.Proofs.Node
import RadixIndex.Proofs.Histogram
import RadixIndex.Proofs.Records
import RadixIndex.Proofs.Stem
import RadixIndex.Proofs.Dynamic.Layout
import RadixIndex.Proofs.Dynamic.Stats
import RadixIndex.Proofs.Listed
import RadixIndex.Proofs.Dynamic.Resize
import RadixIndex.Proofs.Dynamic.Shift
import RadixIndex.Proofs.Dynamic.Children
import RadixIndex.Proofs.Below
import RadixIndex.Proofs.Dynamic.Firm
import RadixIndex.Proofs.Dynamic.Lookup
import RadixIndex.Proofs.Dynamic.Insert
import RadixIndex.Proofs.Dynamic.Erase
import RadixIndex.Proofs.Contents
import RadixIndex.Proofs.Runs
import RadixIndex.Proofs.Dynamic.Refines
import RadixIndex.Proofs.Static.Formed
import RadixIndex.Proofs.Static.Freeze
import RadixIndex.Proofs.Static.Align
import RadixIndex.Proofs.Static.Merged
import RadixIndex.Proofs.Static.Integrity
import RadixIndex.Proofs.Static.Union
import RadixIndex.Proofs.Cursor
import RadixIndex.Proofs.Index.Refines
import RadixIndex.Proofs.Index.Scan
import RadixIndex.Proofs.Beginning
import RadixIndex.Proofs.Dynamic.Integrity
import RadixIndex.Proofs.Dynamic.Regular
import RadixIndex.Proofs.Static.Canonical
import RadixIndex.Proofs.Static.Shape
import RadixIndex.Proofs.Walk
import RadixIndex.Proofs.Static.Preserved
import RadixIndex.Asking.Index
import RadixIndex.Proofs.Asking
import RadixIndex.Proofs.Within
import RadixIndex.Proofs.Dynamic.Within
import RadixIndex.Proofs.Static.Within
import RadixIndex.Proofs.Asked
import RadixIndex.Proofs.Trail
import RadixIndex.Proofs.Index.Schedule
import RadixIndex.Proofs.Index.Trees
import RadixIndex.Proofs.Index.Buffer
import RadixIndex.Proofs.Index.Loading
import RadixIndex.Proofs.Checked
import RadixIndex.Proofs.Index.Refused
import RadixIndex.Proofs.Dynamic.Answering
import RadixIndex.Proofs.AnyKey
import RadixIndex.Proofs.Dynamic.Undo
import RadixIndex.Proofs.Dynamic.Branches
import RadixIndex.Proofs.Static.Interchange
import RadixIndex.Proofs.Accounts
import RadixIndex.Proofs.Dynamic.Trimmed
import RadixIndex.Proofs.Dynamic.Verified
import RadixIndex.Proofs.Static.Verified
import RadixIndex.Proofs.Dynamic.LongStem
import RadixIndex.Dynamic.Window
import RadixIndex.Proofs.Dynamic.Splice
import RadixIndex.Proofs.Dynamic.Replace
import RadixIndex.Dynamic.Moves
import RadixIndex.Proofs.Loader
import RadixIndex.Proofs.Dynamic.Moves

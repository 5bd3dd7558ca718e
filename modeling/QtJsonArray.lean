import QtJsonArray.Value.Double
import QtJsonArray.Value.Cbor
import QtJsonArray.Store.Heap
import QtJsonArray.Store.Release
import QtJsonArray.Array.Handle
import QtJsonArray.Array.Detach
import QtJsonArray.Array.Edit
import QtJsonArray.Array.Contents
import QtJsonArray.Array.Compare
import QtJsonArray.Array.Faults
import QtJsonArray.Cow.Decode
import QtJsonArray.Cow.Program
import QtJsonArray.Cow.Mirror
import QtJsonArray.Cow.Refinement
import QtJsonArray.Cow.Lifetime
import QtJsonArray.Cow.Construct
import QtJsonArray.Cow.Equality

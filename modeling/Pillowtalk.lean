import Pillowtalk.Clone
import Pillowtalk.Copying
import Pillowtalk.Document
import Pillowtalk.Located
import Pillowtalk.Decode
import Pillowtalk.RoundTrip
import Pillowtalk.Run
import Pillowtalk.Reachable
import Pillowtalk.Refine
import Pillowtalk.Keys
import Pillowtalk.CloneSpec
import Pillowtalk.UpdateSpec
import Pillowtalk.Merge
import Pillowtalk.MapUpdate
import Pillowtalk.Library.Emitter
import Pillowtalk.Serialise
import Pillowtalk.Uthash.Order
import Pillowtalk.Lookup
import Pillowtalk.Http
import Pillowtalk.Lengths
import Pillowtalk.Touched
import Pillowtalk.Frames
import Pillowtalk.Text
import Pillowtalk.FromJson
import Pillowtalk.Iterator
import Pillowtalk.Ownership
import Pillowtalk.Session
import Pillowtalk.Values
import Pillowtalk.Arrays
import Pillowtalk.Apart
import Pillowtalk.Dictionary
import Pillowtalk.Draining
import Pillowtalk.Library.Regions
import Pillowtalk.Release
import Pillowtalk.Footprint
import Pillowtalk.Path
import Pillowtalk.Library.Binary64
import Pillowtalk.Getters
import Pillowtalk.Client
import Pillowtalk.Library.Links
import Pillowtalk.Tailq
import Pillowtalk.Uthash.Links
import Pillowtalk.Uthash.Simulation
import Pillowtalk.Uthash.Refines
import Pillowtalk.Uthash.Load
import Pillowtalk.Exchange
import Pillowtalk.Accounting
import Pillowtalk.Contexts
import Pillowtalk.Library.MergeSort
import Pillowtalk.Uthash.Sorting
import Pillowtalk.PutGet
import Pillowtalk.SelfMerge
import Pillowtalk.Application

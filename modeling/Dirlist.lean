import Dirlist.Hmap.Rings
import Dirlist.Hmap.Keys
import Dirlist.Hmap.Truncate
import Dirlist.Set.Delete
import Dirlist.Set.Algebra
import Dirlist.Charbuf.Stream
import Dirlist.Http.Chunked
import Dirlist.Ihex.Read
import Dirlist.Json.RoundTrip
import Dirlist.Json.Reread
import Dirlist.Json.Property
import Dirlist.Json.Total
import Dirlist.Strlist.Remove
import Dirlist.Strlist.Slice
import Dirlist.Strlist.Sort
import Dirlist.Strlist.Unique
import Dirlist.Strlist.Tokens
import Dirlist.Path.Relative
import Dirlist.Path.Collapse
import Dirlist.Path.Canonicalize
import Dirlist.Path.Links
import Dirlist.Path.Resolve
import Dirlist.Path.Dirname
import Dirlist.Strip.Comments
import Dirlist.Includes.Scan
import Dirlist.Pkgcfg.Expand
import Dirlist.Pkgcfg.Format
import Dirlist.Rules.Indirect
import Dirlist.Rules.Prereq
import Dirlist.Rules.Reduce
import Dirlist.Rules.Sourcedir
import Dirlist.Fnmatch.Glob
import Dirlist.Mainscan.Scan
import Dirlist.Xml.Buffering
import Dirlist.Xml.Walk
import Dirlist.Xml.Nesting
import Dirlist.Xml.Comments
import Dirlist.Xml.Document
import Dirlist.Http.GetHeader
import Dirlist.Http.Framing
import Dirlist.Strarray.Merge
import Dirlist.Stralloc.Subst
import Dirlist.Stralloc.Edit
import Dirlist.Bsdiff.Patch
import Dirlist.Uri.Roundtrip
import Dirlist.Str.Versdiff
import Dirlist.Cb.Store
import Dirlist.Cbmap.Store
import Dirlist.Dlist.Runs
import Dirlist.Hashmap.Runs
import Dirlist.Asn1.Tag
import Dirlist.Asn1.Length

import Crawler.Bloom.Startup
import Crawler.Connections.Invariant
import Crawler.Dns.Answer
import Crawler.Dns.Cache
import Crawler.Dns.Ids
import Crawler.Dns.Names
import Crawler.Dns.Timed
import Crawler.Dns.Tries
import Crawler.Dns.Walk
import Crawler.Html.Author
import Crawler.Seeds
import Crawler.ProcessCycle
import Crawler.Rbtree.Expire
import Crawler.Http.HeadCase
import Crawler.Http.HeadSlices
import Crawler.Http.Chunked
import Crawler.Http.ChunkLens
import Crawler.Http.Inflate
import Crawler.Http.RecvLog
import Crawler.Http.Request
import Crawler.Http.Url
import Crawler.Http.TlsReads
import Crawler.Http.Transmit
import Crawler.Tasks.Complete
import Crawler.Http.Pages
import Crawler.Rbtree.Depth
